import AgentLang.Proofs.Grammar.Reading
import AgentLang.Proofs.Target.Literal
import AgentLang.Proofs.Text.Lines

/-!
# Documentation strings of the emitted code

A documentation string stands between two marks of three quotation marks. Escaping keeps the mark
out of its text, but on a single line the closing mark follows the text directly. A quotation mark
at the end of the text then joins the mark, and a backslash there protects its first character. So
the literal is closed where it ends exactly if the text goes over several lines or its last
character is settled.
-/

namespace AgentLang

open List

namespace Text

theorem strip_infix (text : List Char) : strip text <:+: text := by
  have hstart : stripStart text <:+: text := (dropWhile_suffix _).isInfix
  have hend : strip text <+: stripStart text := by
    have h : stripStart (stripStart text).reverse <:+ (stripStart text).reverse :=
      dropWhile_suffix _
    simpa [strip, stripEnd] using reverse_prefix.mpr h
  exact hend.isInfix.trans hstart

end Text

namespace Target

variable {text rest body : List Char}

/-! ### The closing mark -/

/-- A literal between marks of three quotation marks that is closed at its end and not before. -/
def ClosedLiteral (literal : List Char) : Prop :=
  ∃ body, literal = mark true ++ body ++ mark true ∧
    closing? (mark true) (body ++ mark true) = some body.length

/-- The text does not end with a quotation mark or a backslash that no backslash protects. -/
def settled : List Char → Bool
  | '\\' :: _ :: rest => settled rest
  | [c] => c != '\\' && c != '"'
  | _ :: rest => settled rest
  | [] => true

theorem closing?_cons (hc : c ≠ '\\') (rest : List Char) :
    closing? (mark true) (c :: rest) =
      if (mark true).isPrefixOf (c :: rest) then some 0
      else (closing? (mark true) rest).map (· + 1) := by
  rw [closing?]
  rintro _ _ rfl
  exact absurd rfl hc

theorem closing?_cons_eq_none (hc : c ≠ '\\') :
    closing? (mark true) (c :: rest) = none ↔
      ¬mark true <+: c :: rest ∧ closing? (mark true) rest = none := by
  rw [closing?_cons hc, ← isPrefixOf_iff_prefix]
  split <;> simp_all

/-- Behind a text that holds no mark, the mark is found where it begins exactly if the end of the
text is settled. -/
theorem closing?_append_mark_iff (h : closing? (mark true) body = none) :
    closing? (mark true) (body ++ mark true) = some body.length ↔ settled body = true := by
  fun_induction settled body with
  | case1 c rest ih =>
    have hrest : closing? (mark true) rest = none := by simpa [closing?] using h
    rw [← ih hrest]
    simp [closing?]
  | case2 c =>
    by_cases hslash : c = '\\'
    · subst hslash
      decide
    by_cases hquote : c = '"'
    · subst hquote
      decide
    · simp [closing?, mark, List.isPrefixOf, hslash, hquote, Ne.symm hquote]
  | case3 c rest hpair hsingle ih =>
    have hslash : c ≠ '\\' := by
      rintro rfl
      cases rest with
      | nil => exact hsingle rfl
      | cons d rest => exact hpair d rest rfl rfl
    obtain ⟨hstart, hrest⟩ := (closing?_cons_eq_none hslash).mp h
    rw [cons_append, closing?_cons hslash, ← ih hrest]
    split
    next hjoined =>
      -- Two quotation marks at the end of the text and one of the mark.
      have hlast : rest = ['"'] := by
        rw [List.isPrefixOf_iff_prefix] at hjoined
        cases rest with
        | nil => exact absurd rfl hsingle
        | cons d others =>
          cases others with
          | nil =>
            obtain ⟨-, hrest⟩ := cons_prefix_cons.mp hjoined
            obtain ⟨hd, -⟩ := cons_prefix_cons.mp hrest
            rw [hd]
          | cons e others =>
            refine absurd ?_ hstart
            simpa [mark, cons_prefix_cons] using hjoined
      simp [hlast, closing?, mark]
    · simp
  | case4 => decide

/-! ### Escaping -/

theorem eq_of_escapeTripleMarks (h : escapeTripleMarks text = '"' :: more) :
    ∃ rest, text = '"' :: rest ∧ more = escapeTripleMarks rest := by
  fun_cases escapeTripleMarks text with
  | case1 rest => simp [escapeTripleMarks] at h
  | case2 c rest hmark =>
    rw [escapeTripleMarks] at h
    · obtain ⟨rfl, rfl⟩ := List.cons.inj h
      exact ⟨rest, rfl, rfl⟩
    · exact hmark
  | case3 => simp [escapeTripleMarks] at h

/-- An escaped text holds no mark, even if its first character is already protected. -/
theorem closing?_escapeTripleMarks (text : List Char) :
    closing? (mark true) (escapeTripleMarks text) = none ∧
      closing? (mark true) (escapeTripleMarks text).tail = none := by
  fun_induction escapeTripleMarks text with
  | case1 rest ih => simpa [closing?, mark, List.isPrefixOf] using ih.1
  | case2 c rest hmark ih =>
    refine ⟨?_, ih.1⟩
    by_cases hslash : c = '\\'
    · subst hslash
      cases hrest : escapeTripleMarks rest with
      | nil => decide
      | cons d more => simpa [hrest, closing?] using ih.2
    · refine (closing?_cons_eq_none hslash).mpr ⟨fun hstart => ?_, ih.1⟩
      obtain ⟨more, hmore⟩ := hstart
      obtain ⟨hc, hrest⟩ := List.cons.inj hmore.symm
      obtain ⟨second, rfl, hsecond⟩ := eq_of_escapeTripleMarks hrest
      obtain ⟨third, rfl, -⟩ := eq_of_escapeTripleMarks hsecond.symm
      exact hmark third hc rfl
  | case3 => decide

theorem escapeTripleMarks_eq_self (h : ¬mark true <:+: text) : escapeTripleMarks text = text := by
  fun_induction escapeTripleMarks text with
  | case1 rest => exact absurd (prefix_append (mark true) rest).isInfix h
  | case2 c rest hmark ih =>
    rw [ih fun hrest => h (hrest.trans (suffix_cons c rest).isInfix)]
  | case3 => rfl

theorem lineEnd_mem_escapeTripleMarks : '\n' ∈ escapeTripleMarks text ↔ '\n' ∈ text := by
  fun_induction escapeTripleMarks text with
  | case1 _ ih | case2 _ _ _ ih => simp [ih]
  | case3 => rfl

/-! ### Single lines and several lines -/

theorem settled_append_lineEnd (text : List Char) : settled (text ++ ['\n']) = true := by
  fun_induction settled text with
  | case1 c rest ih => simpa [settled] using ih
  | case2 c => by_cases hc : c = '\\' <;> simp [settled, hc]
  | case3 c rest hpair hsingle ih =>
    have hcons : settled (c :: (rest ++ ['\n'])) = settled (rest ++ ['\n']) := by
      rw [settled]
      · intro d others hc hrest
        cases rest with
        | nil => exact hsingle rfl
        | cons e rest => exact hpair e rest hc rfl
      · simp
    rw [cons_append, hcons, ih]
  | case4 => rfl

theorem closing?_append_lineEnd (h : closing? (mark true) text = none) :
    closing? (mark true) (text ++ ['\n']) = none := by
  fun_induction closing? (mark true) text with
  | case1 c rest ih => simpa [closing?] using ih (by simpa using h)
  | case2 c rest hpair hstart => cases h
  | case3 c rest hpair hstart ih =>
    have hrest := ih (by simpa using h)
    by_cases hslash : c = '\\'
    · cases rest with
      | nil => rw [hslash]; decide
      | cons d rest => exact absurd rfl (hpair d rest hslash)
    · refine (closing?_cons_eq_none hslash).mpr ⟨fun hjoined => ?_, hrest⟩
      have hjoined : mark true <+: (c :: rest) ++ ['\n'] := hjoined
      rcases prefix_concat_iff.mp hjoined with hmark | hmark
      · have hmem : '\n' ∈ mark true := by simp [hmark]
        exact absurd hmem (by decide)
      · exact hstart (List.isPrefixOf_iff_prefix.mpr hmark)
  | case4 => decide

/-- The text of a documentation string. One over several lines has a line end before its closing
mark. -/
theorem joinLines_docLines (text : String) :
    (Text.joinLines (docLines (some text))).toList =
      mark true ++ (escapeTripleMarks text.toList ++ if '\n' ∈ text.toList then ['\n'] else []) ++
        mark true := by
  obtain ⟨first, others, hsplit⟩ := exists_cons_of_ne_nil
    (Text.splitAt_ne_nil '\n' (escapeTripleMarks text.toList))
  have hjoin : (Text.joinLines ((first :: others).map String.ofList)).toList =
      escapeTripleMarks text.toList := by
    rw [Text.joinLines_toList, ← hsplit, map_map]
    simpa using Text.intercalate_splitAt '\n' (escapeTripleMarks text.toList)
  cases others with
  | nil =>
    have hmem : '\n' ∉ text.toList :=
      lineEnd_mem_escapeTripleMarks.not.mp (Text.splitAt_eq_singleton_iff.mp ⟨first, hsplit⟩)
    rw [docLines, hsplit, if_neg hmem, ← hjoin]
    simp [Text.joinLines, mark]
  | cons second others =>
    have hmem : '\n' ∈ text.toList := by
      by_contra hmem
      obtain ⟨only, honly⟩ := Text.splitAt_eq_singleton_iff.mpr
        (lineEnd_mem_escapeTripleMarks.not.mpr hmem)
      simp [hsplit] at honly
    have hlines : docLines (some text) = ("\"\"\"" ++ String.ofList first) ::
        (second :: others).map String.ofList ++ ["\"\"\""] := by
      rw [docLines, hsplit]
      rfl
    rw [hlines, if_pos hmem, ← hjoin, Text.joinLines_append (cons_ne_nil _ _)
      (cons_ne_nil _ _), Text.joinLines, String.intercalate_cons_append]
    simp [Text.joinLines, mark]

theorem closedLiteral_iff (h : closing? (mark true) body = none) :
    ClosedLiteral (mark true ++ body ++ mark true) ↔ settled body = true := by
  rw [← closing?_append_mark_iff h]
  constructor
  · rintro ⟨inner, heq, hclosing⟩
    obtain rfl : body = inner :=
      append_cancel_left (append_cancel_right heq)
    exact hclosing
  · exact fun hclosing => ⟨body, rfl, hclosing⟩

/-- Over several lines the line end before the closing mark settles every text. -/
theorem closedLiteral_docLines_iff (text : String) :
    ClosedLiteral (Text.joinLines (docLines (some text))).toList ↔
      '\n' ∈ text.toList ∨ settled (escapeTripleMarks text.toList) = true := by
  have hfree := (closing?_escapeTripleMarks text.toList).1
  rw [joinLines_docLines]
  by_cases hmem : '\n' ∈ text.toList
  · rw [if_pos hmem, closedLiteral_iff (closing?_append_lineEnd hfree)]
    simp [hmem, settled_append_lineEnd]
  · rw [if_neg hmem, append_nil, closedLiteral_iff hfree]
    simp [hmem]

end Target

/-! ### Documentation strings of the source -/

theorem Parse.Pattern.not_infix_of_upToEndOf? (hliteral : literal ≠ [])
    (h : upToEndOf? literal text = some taken) : ¬literal <:+: text.take (taken - 1) := by
  induction text generalizing taken with
  | nil => simpa using hliteral
  | cons c rest ih =>
    rw [upToEndOf?] at h
    split at h
    next hstart =>
      obtain rfl := Option.some.inj h
      intro hstretch
      have hlength := hstretch.length_le
      have hpos := length_pos_of_ne_nil hliteral
      rw [length_take] at hlength
      omega
    next hstart =>
      obtain ⟨count, hcount, rfl⟩ := Option.map_eq_some_iff.mp h
      rw [List.isPrefixOf_iff_prefix] at hstart
      cases count with
      | zero => simpa using hliteral
      | succ count =>
        rw [Nat.add_sub_cancel, take_succ_cons]
        intro hstretch
        rcases infix_cons_iff.mp hstretch with hhead | hstretch
        · exact hstart (hhead.trans (cons_prefix_cons.mpr ⟨rfl, take_prefix _ _⟩))
        · exact ih hcount hstretch

namespace Grammar

open Target (mark)

variable {text : List Char} {pos : Nat} {value : String} {next : Parse.Cursor}
  {reach : Parse.Reach}

theorem not_mark_infix_of_match
    (h : (Parse.Pattern.lit "\"\"\"" ++ .through (mark true)).match? rest = some taken) :
    ¬mark true <:+: (trimmed 3 3 (String.ofList (rest.take taken))).toList := by
  obtain ⟨first, hfirst, hmap⟩ := Option.bind_eq_some_iff.mp h
  obtain ⟨count, hcount, rfl⟩ := Option.map_eq_some_iff.mp hmap
  obtain rfl : 3 = first := by
    rw [Parse.Pattern.lit, Parse.Pattern.match?] at hfirst
    split at hfirst
    · exact Option.some.inj hfirst
    · cases hfirst
  have hfree := Parse.Pattern.not_infix_of_upToEndOf? (by decide) hcount
  refine fun hstretch => hfree (hstretch.trans (List.IsPrefix.isInfix ?_))
  have hlength : min ((rest.take (3 + count)).length - 3) (3 + count) - 3 ≤ count - 1 := by
    rw [length_take]
    omega
  rw [trimmed, String.toList_ofList, String.toList_ofList, take_take, drop_take]
  exact take_prefix_take_left hlength

theorem not_mark_infix_of_docString
    (h : run? docString text pos = some ⟨.success value next, reach⟩) :
    ¬mark true <:+: value.toList := by
  obtain ⟨depth, heval⟩ := eval_of_run? h
  have hreply : (Parse.Engine.matchToken (.lit "\"\"\"" ++ .through (mark true)) "docstring"
      (Parse.Cursor.ofPos text pos)).map
        (fun text => String.ofList (Text.strip (trimmed 3 3 text).toList)) =
      ⟨.success value next, reach⟩ := Option.some.inj heval
  rw [Parse.Engine.matchToken] at hreply
  split at hreply
  next taken hmatch =>
    obtain ⟨hvalue, -⟩ := Parse.Outcome.success.inj (congrArg Parse.Reply.outcome hreply)
    rw [← hvalue, String.toList_ofList]
    exact fun hstretch => not_mark_infix_of_match hmatch (hstretch.trans (Text.strip_infix _))
  next =>
    have hmiss := congrArg Parse.Reply.outcome hreply
    cases hmiss

end Grammar

namespace Target

/-- What is read as a documentation string is closed where it ends, exactly if it goes over several
lines or its last character does not touch the closing mark. -/
theorem docString_closed_iff {text : List Char} {pos : Nat} {value : String}
    {next : Parse.Cursor} {reach : Parse.Reach}
    (h : Grammar.run? Grammar.docString text pos = some ⟨.success value next, reach⟩) :
    ClosedLiteral (Text.joinLines (docLines (some value))).toList ↔
      '\n' ∈ value.toList ∨ settled value.toList = true := by
  rw [closedLiteral_docLines_iff,
    escapeTripleMarks_eq_self (Grammar.not_mark_infix_of_docString h)]

/-- Quotation marks at both ends of a line, the last one protected. -/
theorem docString_closed_iff_protected :
    (∃ next reach, Grammar.run? Grammar.docString "\"\"\" \"a\" or \\\"b\\\" \"\"\"".toList 0 =
      some ⟨.success "\"a\" or \\\"b\\\"" next, reach⟩) ∧
    ClosedLiteral (Text.joinLines (docLines (some "\"a\" or \\\"b\\\""))).toList := by
  have hread : Grammar.run? Grammar.docString "\"\"\" \"a\" or \\\"b\\\" \"\"\"".toList 0 =
      some ⟨.success "\"a\" or \\\"b\\\"" ⟨20, [], 0⟩, .unseen⟩ :=
    Grammar.run?_eq_some_iff.mpr ⟨1, rfl⟩
  exact ⟨⟨_, _, hread⟩, (docString_closed_iff hread).mpr (.inr (by decide))⟩

section

-- The text is read by evaluation, which goes deeper than the limit allows.
set_option maxRecDepth 2000

/-- A quotation mark at the end of a single line joins the closing mark. -/
theorem docString_not_closed :
    Program.parse "def f()\x7b\"\"\"a \"b\" \"\"\"\x7d" none =
        .ok ⟨[.function "f" [] [] none (some "a \"b\"")]⟩ ∧
      docLines (some "a \"b\"") = ["\"\"\"a \"b\"\"\"\""] ∧
      ¬ClosedLiteral (Text.joinLines (docLines (some "a \"b\""))).toList := by
  refine ⟨Program.parse_eq_ok 12 rfl rfl, by decide, ?_⟩
  rw [closedLiteral_docLines_iff]
  decide

end

end Target
end AgentLang
