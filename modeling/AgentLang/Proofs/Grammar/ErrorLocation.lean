import AgentLang.Proofs.Grammar.Items
import AgentLang.Proofs.Parse.Location

/-!
# Where errors are reported

A text that cannot be read is reported at the furthest place that any attempt reached. That place
lies behind all items that were read, inside the text, and something was expected there.
-/

namespace AgentLang

open Parse (Cursor Reply Reach)

namespace Grammar

variable {α β : Type} {text : List Char} {pos start : Nat} {committed : Option String}
  {reach : Reach}

theorem body_filled (r : Rule) : (bodyOf r).filled = true := by
  cases r <;> rfl

theorem run?_located (hp : p.filled = true) (hstart : start ≤ text.length)
    (h : run? p text start = some reply) : reply.Located text start := by
  obtain ⟨depth, hplain⟩ := eval_of_run? h
  have hthroughout : grammar.Throughout (·.filled = true) p :=
    Parse.Grammar.throughout_of_bodies hp body_filled
  exact Parse.Grammar.eval_located p hthroughout (Cursor.on_ofPos text start) hstart reply hplain

theorem run?_map (h : run? (.map f p) text start = some reply) :
    ∃ inner, run? p text start = some inner ∧ reply = inner.map f := by
  obtain ⟨depth, hplain⟩ := eval_of_run? h
  obtain ⟨inner, hinner, hreply⟩ := Option.bind_eq_some_iff.mp hplain
  cases hreply
  exact ⟨inner, run?_of_plain (Cursor.on_ofPos text start) hinner, rfl⟩

/-- The outcome of two parsers in order, of which the first gives the value. -/
def followed (text : List Char) (q : Parser β) : Parse.Outcome α → Parse.Outcome α → Prop
  | .failure pos committed, outcome => outcome = .failure pos committed
  | .success value next, outcome =>
    ∃ second, run? q text next.pos = some second ∧ outcome = second.outcome.map fun _ => value

theorem run?_left {p : Parser α} {q : Parser β} {reply : Reply α}
    (h : run? (p <* q) text start = some reply) :
    ∃ first, run? p text start = some first ∧ followed text q first.outcome reply.outcome := by
  obtain ⟨depth, hplain⟩ := eval_of_run? h
  obtain ⟨mapped, hmapped, hsecond⟩ := Option.bind_eq_some_iff.mp hplain
  obtain ⟨first, hfirst, hmap⟩ := Option.bind_eq_some_iff.mp hmapped
  cases hmap
  have hp := run?_of_plain (Cursor.on_ofPos text start) hfirst
  refine ⟨first, hp, ?_⟩
  obtain ⟨outcome, reach⟩ := first
  cases outcome with
  | failure pos committed =>
    cases hsecond
    exact rfl
  | success value next =>
    obtain ⟨other, hother, hreply⟩ := Option.bind_eq_some_iff.mp hsecond
    obtain ⟨second, hq, hmap⟩ := Option.bind_eq_some_iff.mp hother
    cases hmap
    cases hreply
    exact ⟨second, run?_of_plain (on_of_run? hp) hq, rfl⟩

/-- The outcome lies behind a position of the text. -/
def Behind (text : List Char) (low : Nat) : Parse.Outcome α → Prop
  | .success _ next => low ≤ next.pos ∧ next.pos ≤ text.length
  | .failure pos _ => low ≤ pos

theorem behind_of_located {reply : Reply α} (h : reply.Located text low) :
    Behind text low reply.outcome := by
  obtain ⟨outcome, reach⟩ := reply
  cases outcome with
  | success value next => exact ⟨h.2.1, h.2.2.1⟩
  | failure pos committed => exact h.1

theorem behind_followed {q : Parser β} (hq : q.filled = true) {first outcome : Parse.Outcome α}
    (hfirst : Behind text low first) (h : followed text q first outcome) :
    Behind text low outcome := by
  cases first with
  | failure pos committed =>
    cases h
    exact hfirst
  | success value next =>
    obtain ⟨⟨second, reach⟩, hrun, rfl⟩ := h
    have hsecond := behind_of_located (run?_located hq hfirst.2 hrun)
    cases second with
    | success other last => exact ⟨Nat.le_trans hfirst.1 hsecond.1, hsecond.2⟩
    | failure pos committed => exact Nat.le_trans hfirst.1 hsecond

theorem Items.bounds (h : Items text start nodes last) (hstart : start ≤ text.length) :
    start ≤ last ∧ last ≤ text.length := by
  induction h with
  | nil pos => exact ⟨Nat.le_refl _, hstart⟩
  | cons hitem hmoves hothers ih =>
    have hbehind := behind_of_located (run?_located rfl hstart hitem)
    have hlast := ih hbehind.2
    exact ⟨Nat.le_trans hbehind.1 hlast.1, hlast.2⟩

/-- A program that cannot be read fails behind the items that were read. -/
theorem consumed_of_failure (h : run? program text 0 = some ⟨.failure pos committed, reach⟩) :
    ∃ nodes last, Consumed text 0 nodes last ∧ last ≤ pos := by
  obtain ⟨whole, hwhole, hmap⟩ := run?_map h
  obtain ⟨spaced, hspaced, hend⟩ := run?_left hwhole
  obtain ⟨items, hitems, hspace⟩ := run?_left hspaced
  obtain ⟨depth, hplain⟩ := eval_of_run? hitems
  obtain ⟨nodes, last, hconsumed, hstops⟩ :=
    consumed_of_repeated (Cursor.on_ofPos text 0) hplain
  have hlast : last ≤ text.length := (hconsumed.items.bounds (Nat.zero_le _)).2
  have hitems : Behind text last items.outcome := by
    obtain ⟨outcome, reach⟩ := items
    cases outcome with
    | success values next =>
      obtain ⟨rfl, rfl⟩ := hstops
      exact ⟨Nat.le_refl _, hlast⟩
    | failure pos committed =>
      obtain ⟨reach, hitem⟩ := hstops
      exact (run?_located rfl hlast hitem).1
  have hwhole := behind_followed rfl (behind_followed rfl hitems hspace) hend
  obtain ⟨outcome, reach⟩ := whole
  cases outcome <;> cases hmap
  exact ⟨nodes, last, hconsumed, hwhole⟩

end Grammar

namespace Program

variable {source : String} {file : Option Path} {error : ParseError}

theorem run?_of_parse_error (h : parse source file = .error error) :
    ∃ pos committed reach,
      Grammar.run? Grammar.program source.toList 0 = some ⟨.failure pos committed, reach⟩ ∧
      error = Grammar.errorOf source file pos committed reach := by
  obtain ⟨reply, hrun⟩ := Grammar.exists_run? Grammar.program source.toList 0
  unfold parse at h
  split at h
  next => exact nomatch h
  next pos committed reach heq => exact ⟨pos, committed, reach, heq, (Except.error.inj h).symm⟩
  next heq => exact nomatch hrun.symm.trans heq

/-- A parser in which no choice is empty stops and fails inside the text and behind its start, and
tells what was expected where it fails. So the error of a text that is no program stands at the
furthest place reached, behind all items that were read, and tells what was expected there. -/
theorem parse_error_located :
    (∀ (S : Parse.Signature) [DecidableEq S.Rule] [Hashable S.Rule] (G : Parse.Grammar S) (α : Type)
      (p : Parse.Parser S α), G.Throughout (·.filled = true) p →
      ∀ (text : List Char) (pos : Nat), pos ≤ text.length →
      ∀ (rounds depth : Nat) (reply : Reply α) (memory : Parse.Grammar.Memory S),
      G.session rounds depth p (Cursor.ofPos text pos) {} = some (reply, memory) →
      reply.Located text pos) ∧
    ∀ (source : String) (file : Option Path) (error : ParseError),
      parse source file = .error error →
      ∃ pos committed far names nodes last,
        Grammar.run? Grammar.program source.toList 0 =
          some ⟨.failure pos committed, .upTo far names⟩ ∧
        error.position = far ∧ error.expected = names ∧
        Grammar.Consumed source.toList 0 nodes last ∧ last ≤ far ∧ far ≤ source.length ∧
        ∃ name, name ∈ names := by
  refine ⟨fun S _ _ G α p hp text pos hpos rounds depth reply memory h => ?_, ?_⟩
  · exact Parse.Grammar.session_located hp (Cursor.on_ofPos text pos) hpos h
  intro source file error h
  obtain ⟨pos, committed, reach, hrun, rfl⟩ := run?_of_parse_error h
  obtain ⟨nodes, last, hconsumed, hlast⟩ := Grammar.consumed_of_failure hrun
  have hlocated := (Grammar.run?_located rfl (Nat.zero_le _) hrun).2
  cases reach with
  | unseen => exact hlocated.elim
  | upTo far names =>
    obtain ⟨hlow, hhigh, hnames⟩ := hlocated
    refine ⟨pos, committed, far, names, nodes, last, hrun, ?_, rfl, hconsumed, ?_, ?_, hnames⟩
    · change ((max far pos : Nat) : Int) = far
      rw [Nat.max_eq_left hlow]
    · exact Nat.le_trans hlast hlow
    · rw [← String.length_toList]
      exact hhigh

theorem parse_error_located_second_line :
    (∃ reply memory, Grammar.grammar.session 13 (Grammar.depthFor "a = 1\nb = =".toList)
        Grammar.program (Cursor.ofPos "a = 1\nb = =".toList 6) {} = some (reply, memory) ∧
      reply.Located "a = 1\nb = =".toList 6) ∧
    ∃ error, parse "a = 1\nb = =" none = .error error ∧ error.position = 10 ∧
      ∃ pos committed far names nodes last,
        Grammar.run? Grammar.program "a = 1\nb = =".toList 0 =
          some ⟨.failure pos committed, .upTo far names⟩ ∧
        error.position = far ∧ error.expected = names ∧
        Grammar.Consumed "a = 1\nb = =".toList 0 nodes last ∧ last ≤ far ∧
        far ≤ "a = 1\nb = =".length ∧ ∃ name, name ∈ names := by
  obtain ⟨reply, memory, hsession⟩ :=
    Grammar.exists_session Grammar.program "a = 1\nb = =".toList 6
  have hfilled : Grammar.grammar.Throughout (·.filled = true) Grammar.program :=
    Parse.Grammar.throughout_of_bodies rfl Grammar.body_filled
  have hlocated := parse_error_located.1 Grammar.language Grammar.grammar Program Grammar.program
    hfilled "a = 1\nb = =".toList 6 (by decide) _ _ reply memory hsession
  have herror : parse "a = 1\nb = =" none = .error _ := parse_eq_error 12 rfl rfl
  exact ⟨⟨reply, memory, hsession, hlocated⟩, _, herror, rfl,
    parse_error_located.2 "a = 1\nb = =" none _ herror⟩

end Program
end AgentLang
