import AgentLang.Proofs.Grammar.Verdict
import AgentLang.Proofs.Parse.Exactness

/-!
# How constructs begin

Which characters a parser may begin with is seen from the parser itself. Before any other character,
and at the end of the text, it misses or takes nothing.
-/

namespace AgentLang

namespace Parse

/-- Whether a pattern may take something from a text with the given first character. -/
def Pattern.begins : Pattern → Option Char → Bool
  | .one accepts, next => next.any accepts
  | .exactly literal, next => next.isSome && next == literal.head?
  | .seq first second, next => first.begins next || first.nullable && second.begins next
  | .alt first second, next => first.begins next || second.begins next
  | .star item, next => item.begins next
  | .unless _, _ => false
  | .through _, next => next.isSome

theorem Pattern.match?_of_not_begins {shape : Pattern} {text : List Char} {k : Nat}
    (h : shape.begins text.head? = false) (hmatch : shape.match? text = some k) : k = 0 := by
  induction shape generalizing k with
  | one accepts =>
    cases text with
    | nil => cases hmatch
    | cons c rest =>
      have hc : accepts c = false := h
      simp [match?, hc] at hmatch
  | exactly literal =>
    cases literal with
    | nil => simpa [match?] using hmatch.symm
    | cons c literal =>
      cases text with
      | nil => simp [match?] at hmatch
      | cons d rest =>
        have hc : d ≠ c := by simpa [begins] using h
        simp [match?, Ne.symm hc] at hmatch
  | seq first second ih₁ ih₂ =>
    simp only [begins, Bool.or_eq_false_iff, Bool.and_eq_false_iff] at h
    simp only [match?, Option.bind_eq_some_iff] at hmatch
    obtain ⟨k₁, h₁, hmap⟩ := hmatch
    obtain ⟨k₂, h₂, rfl⟩ := Option.map_eq_some_iff.mp hmap
    obtain rfl := ih₁ h.1 h₁
    have hnullable : first.nullable ≠ false := fun hn => absurd (match?_pos hn h₁) (Nat.lt_irrefl 0)
    rw [ih₂ (h.2.resolve_left hnullable) h₂]
  | alt first second ih₁ ih₂ =>
    simp only [begins, Bool.or_eq_false_iff] at h
    simp only [match?] at hmatch
    split at hmatch
    next taken htaken => exact ih₁ h.1 (htaken.trans hmatch)
    next => exact ih₂ h.2 hmatch
  | star item ih =>
    cases text with
    | nil => simpa [match?, repeated] using hmatch.symm
    | cons c rest =>
      simp only [match?, Option.some.injEq, repeated] at hmatch
      split at hmatch
      next more hmore => cases ih h hmore
      next => exact hmatch.symm
  | «unless» literal =>
    simp only [match?] at hmatch
    split at hmatch
    · cases hmatch
    · exact (Option.some.inj hmatch).symm
  | through literal =>
    cases text with
    | nil =>
      simp only [match?, upToEndOf?] at hmatch
      split at hmatch
      · exact (Option.some.inj hmatch).symm
      · cases hmatch
    | cons c rest => cases h

/-- Whether a parser may do anything but miss or succeed at once before a text with the given first
character. -/
def Parser.begins {S : Signature} (calls : S.Rule → Bool) (next : Option Char) :
    {α : Type} → Parser S α → Bool
  | _, .text literal _ => next.isSome && next == literal.head?
  | _, .keyword word _ => next.isSome && next == word.head?
  | _, .token shape _ => shape.begins next
  | _, .map _ p => p.begins calls next
  | _, .seq p q => p.begins calls next || p.nullable (fun _ => false) && q.begins calls next
  | _, .alt p q => p.begins calls next || q.begins calls next
  | _, .optional p => p.begins calls next
  | _, .many p => p.begins calls next
  | _, .many1 p => p.begins calls next
  | _, .sepBy p _ => p.begins calls next || p.nullable fun _ => false
  | _, .lookahead p => p.begins calls next
  | _, .label p _ => p.begins calls next
  | _, .commit _ _ => true
  | _, .probe _ p => p.begins calls next
  | _, .call r => calls r
  | _, _ => false

/-! ### First characters of what is built from parsers -/

section

variable {shape shape' : Pattern} {next : Option Char} {literal : String}

@[simp] theorem Pattern.begins_one :
    (Pattern.one accepts).begins next = next.any accepts := rfl

@[simp] theorem Pattern.begins_lit :
    (Pattern.lit literal).begins next =
      (next.isSome && next == literal.toList.head?) := rfl

@[simp] theorem Pattern.begins_append :
    (shape ++ shape').begins next = (shape.begins next || shape.nullable && shape'.begins next) := rfl

@[simp] theorem Pattern.begins_orElse :
    (shape <|> shape').begins next = (shape.begins next || shape'.begins next) := rfl

@[simp] theorem Pattern.begins_plus : shape.plus.begins next = shape.begins next := by
  simp [plus, begins]

@[simp] theorem Pattern.begins_opt : shape.opt.begins next = shape.begins next := by
  change (shape.begins next || (next.isSome && next == none)) = shape.begins next
  cases next <;> simp

@[simp] theorem Pattern.nullable_opt : shape.opt.nullable = true :=
  Bool.or_true shape.nullable

@[simp] theorem Pattern.nullable_lit :
    (Pattern.lit literal).nullable = literal.toList.isEmpty := rfl

@[simp] theorem Pattern.nullable_append :
    (shape ++ shape').nullable = (shape.nullable && shape'.nullable) := rfl

@[simp] theorem Pattern.nullable_plus : shape.plus.nullable = shape.nullable := by
  simp [plus, nullable]

@[simp] theorem Pattern.nullable_one :
    (Pattern.one accepts).nullable = false := rfl

variable {S : Signature} {α β : Type} {calls empty : S.Rule → Bool} {p : Parser S α}
  {q : Parser S β} {name : String}

namespace Parser

@[simp] theorem begins_lit : (lit literal : Parser S String).begins calls next =
    (next.isSome && next == literal.toList.head?) := rfl

@[simp] theorem begins_named : (named literal name : Parser S String).begins calls next =
    (next.isSome && next == literal.toList.head?) := rfl

@[simp] theorem begins_word : (word literal : Parser S String).begins calls next =
    (next.isSome && next == literal.toList.head?) := rfl

@[simp] theorem begins_token : (token shape name : Parser S String).begins calls next =
    shape.begins next := rfl

@[simp] theorem begins_map {f : α → β} : (f <$> p).begins calls next = p.begins calls next := rfl

@[simp] theorem begins_seq {p : Parser S (α → β)} {q : Parser S α} :
    (p <*> q).begins calls next =
      (p.begins calls next || p.nullable (fun _ => false) && q.begins calls next) := rfl

@[simp] theorem begins_skip : (p *> q).begins calls next =
    (p.begins calls next || p.nullable (fun _ => false) && q.begins calls next) := rfl

@[simp] theorem begins_keep : (p <* q).begins calls next =
    (p.begins calls next || p.nullable (fun _ => false) && q.begins calls next) := rfl

@[simp] theorem begins_choice_nil : (choice [] : Parser S α).begins calls next = false := rfl

@[simp] theorem begins_choice_cons :
    (choice (p :: ps)).begins calls next = (p.begins calls next || (choice ps).begins calls next) :=
  rfl

@[simp] theorem nullable_lit : (lit literal : Parser S String).nullable empty =
    literal.toList.isEmpty := rfl

@[simp] theorem nullable_word : (word literal : Parser S String).nullable empty =
    literal.toList.isEmpty := rfl

@[simp] theorem nullable_skip : (p *> q).nullable empty = (p.nullable empty && q.nullable empty) :=
  rfl

@[simp] theorem nullable_keep : (p <* q).nullable empty = (p.nullable empty && q.nullable empty) :=
  rfl

@[simp] theorem nullable_map {f : α → β} : (f <$> p).nullable empty = p.nullable empty := rfl

end Parser
end

end Parse

namespace Grammar

open Parse (Pattern)

variable {α β : Type} {text : List Char} {i n : Nat}

/-- Whether a rule may begin with the given character, seen from the bodies down to some depth. -/
def opens (next : Option Char) : (depth : Nat) → Rule → Bool
  | 0, _ => true
  | depth + 1, r => (bodyOf r).begins (opens next depth) next

/-- Rules lead to each other at the same place no deeper than this. -/
abbrev depth : Nat := 7

/-- Whether a parser of the language may begin with the given character. -/
def begins (next : Option Char) (p : Parser α) : Bool :=
  p.begins (opens next depth) next

/-- The parser misses or takes nothing. -/
def Idle (i : Nat) (v : Verdict α) : Prop :=
  v = .miss ∨ ∃ value, v = .ok value i

theorem Idle.map (f : α → β) (h : Idle i v) : Idle i (v.map f) := by
  rcases h with rfl | ⟨value, rfl⟩
  · exact .inl rfl
  · exact .inr ⟨_, rfl⟩

theorem eq_nil_of_prefix {literal : List Char}
    (h : (rest.head?.isSome && rest.head? == literal.head?) = false)
    (hstarts : literal.isPrefixOf rest = true) : literal = [] := by
  cases literal with
  | nil => rfl
  | cons c literal =>
    obtain ⟨tail, rfl⟩ := List.isPrefixOf_iff_prefix.mp hstarts
    simp at h

theorem idle_of_begins {calls : Rule → Bool} (hi : i ≤ text.length)
    (hcalls : ∀ r, calls r = false → Idle i (read text (Parse.Parser.call (S := language) r) i))
    (p : Parser α) (h : p.begins calls (text.drop i).head? = false) :
    Idle i (read text p i) := by
  induction p with
  | text literal name =>
    rw [read_text hi]
    split
    next hstarts =>
      obtain rfl := eq_nil_of_prefix h hstarts
      exact .inr ⟨_, rfl⟩
    next => exact .inl rfl
  | keyword word name =>
    rw [read_keyword hi]
    split
    next hstarts =>
      obtain rfl := eq_nil_of_prefix h hstarts.1
      exact .inr ⟨_, rfl⟩
    next => exact .inl rfl
  | token shape name =>
    rw [read_token hi]
    cases hmatch : shape.match? (text.drop i) with
    | none => exact .inl rfl
    | some taken =>
      obtain rfl := Pattern.match?_of_not_begins h hmatch
      exact .inr ⟨_, rfl⟩
  | eof =>
    rw [read_eof]
    split
    · exact .inr ⟨_, rfl⟩
    · exact .inl rfl
  | pure value => exact .inr ⟨value, read_pure value⟩
  | fail => exact .inl read_fail
  | map f p ih =>
    rw [read_map]
    exact (ih h).map f
  | seq p q ih₁ ih₂ =>
    simp only [Parse.Parser.begins, Bool.or_eq_false_iff, Bool.and_eq_false_iff] at h
    rw [read_seq]
    rcases ih₁ h.1 with hp | ⟨f, hp⟩
    · exact .inl (by rw [hp]; rfl)
    · have hnullable : p.nullable (fun _ => false) ≠ false := by
        intro hn
        exact absurd ((read_bounds hp hi).2.2 hn) (Nat.lt_irrefl i)
      rw [hp]
      exact (ih₂ (h.2.resolve_left hnullable)).map f
  | alt p q ih₁ ih₂ =>
    simp only [Parse.Parser.begins, Bool.or_eq_false_iff] at h
    rw [read_alt]
    rcases ih₁ h.1 with hp | ⟨v, hp⟩
    · rw [hp]
      exact ih₂ h.2
    · exact .inr ⟨v, by rw [hp]; rfl⟩
  | optional p ih =>
    rw [read_optional]
    rcases ih h with hp | ⟨v, hp⟩
    · exact .inr ⟨_, by rw [hp]; rfl⟩
    · exact .inr ⟨_, by rw [hp]; rfl⟩
  | many p ih =>
    rw [read_many]
    rcases ih h with hp | ⟨v, hp⟩
    · exact .inr ⟨_, by rw [hp]⟩
    · exact .inr ⟨[], by rw [hp]; exact if_pos rfl⟩
  | many1 p ih =>
    rw [read_many1_eq, read_many]
    rcases ih h with hp | ⟨v, hp⟩
    · exact .inl (by rw [hp]; rfl)
    · refine .inr ⟨[], ?_⟩
      rw [hp]
      dsimp only
      rw [if_pos rfl]
      rfl
  | sepBy p separator ih =>
    simp only [Parse.Parser.begins, Bool.or_eq_false_iff] at h
    rw [read_sepBy]
    rcases ih h.1 with hp | ⟨v, hp⟩
    · exact .inr ⟨_, by rw [hp]⟩
    · exact absurd ((read_bounds hp hi).2.2 h.2) (Nat.lt_irrefl i)
  | lookahead p ih =>
    rw [read_lookahead]
    rcases ih h with hp | ⟨v, hp⟩
    · exact .inl (by rw [hp]; rfl)
    · exact .inr ⟨v, by rw [hp]; rfl⟩
  | notFollowedBy p name =>
    rw [read_notFollowedBy]
    split
    · exact .inl rfl
    · exact .inr ⟨(), rfl⟩
  | label p name ih =>
    rw [read_label]
    exact ih h
  | commit p message => cases h
  | probe mark p ih =>
    rw [read_probe]
    exact ih h
  | call r => exact hcalls r h

theorem idle_of_opens (hi : i ≤ text.length) (depth : Nat) (r : Rule)
    (h : opens (text.drop i).head? depth r = false) :
    Idle i (read text (Parse.Parser.call (S := language) r) i) := by
  induction depth generalizing r with
  | zero => cases h
  | succ depth ih =>
    rw [read_call]
    exact idle_of_begins hi ih (bodyOf r) h

theorem read_idle (hi : i ≤ text.length) (h : begins (text.drop i).head? p = false) :
    Idle i (read text p i) :=
  idle_of_begins hi (idle_of_opens hi depth) p h

theorem read_eq_miss (hi : i ≤ text.length) (h : begins (text.drop i).head? p = false)
    (hp : p.nullable (fun _ => false) = false) : read text p i = .miss := by
  rcases read_idle hi h with hmiss | ⟨v, hok⟩
  · exact hmiss
  · exact absurd ((read_bounds hok hi).2.2 hp) (Nat.lt_irrefl i)

/-! ### Expressions never fail for good -/

/-- The rules of expressions and types. -/
def Rule.expression : Rule → Bool
  | .statement | .armBody | .ifElse => false
  | _ => true

/-- Whether a parser and all rules that it comes to call do without commitment. -/
def harmless (p : Parser α) : Bool :=
  !p.commits && p.rules.all Rule.expression

theorem harmless_choice (h : ∀ p ∈ ps, harmless p = true) :
    harmless (Parse.Parser.choice ps) = true := by
  induction ps with
  | nil => rfl
  | cons p ps ih =>
    have hp := h p List.mem_cons_self
    have hps := ih fun q hq => h q (List.mem_cons_of_mem p hq)
    change (!(p.commits || (Parse.Parser.choice ps).commits) &&
      (p.rules ++ (Parse.Parser.choice ps).rules).all Rule.expression) = true
    simp only [harmless, Bool.and_eq_true, Bool.not_eq_true'] at hp hps
    rw [hp.1, hps.1, List.all_append, hp.2, hps.2]
    rfl

theorem harmless_body (h : r.expression = true) : harmless (bodyOf r) = true := by
  revert h
  cases r <;> decide

theorem read_ne_dead (hp : harmless p = true) : read text p i ≠ .dead := by
  have hopen : ∀ {α : Type} {p : Parser α}, harmless p = true →
      p.commits = false ∧ ∀ r ∈ p.rules, r.expression = true := by
    intro α p hp
    simpa [harmless] using hp
  have hreach : ∀ r, grammar.Reaches p r → r.expression = true := by
    intro r hr
    induction hr with
    | here h => exact (hopen hp).2 _ h
    | through _ h ih => exact (hopen (harmless_body ih)).2 _ h
  have hthroughout : grammar.Throughout (·.commits = false) p :=
    ⟨(hopen hp).1, fun r hr => (hopen (harmless_body (hreach r hr))).1⟩
  obtain ⟨depth, reply, hplain, hread⟩ := exists_plain text p i
  have := Parse.Grammar.eval_open p hthroughout (Parse.Cursor.ofPos text i) reply hplain
  rw [hread]
  obtain ⟨⟨v, next⟩ | ⟨pos, _ | message⟩, reach⟩ := reply
  · exact nofun
  · exact nofun
  · exact this.elim

end Grammar
end AgentLang
