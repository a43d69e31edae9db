import AgentLang.Proofs.Grammar.InsertDeclaration

/-!
# Semicolons are optional

A statement that ends before a line end, a closing brace, a comment or the end of the text may be
followed by any number of semicolons: it is the same statement, and its end moves by the semicolons.
-/

namespace AgentLang.Grammar

open List
open Verdict
open Parse (Cursor Reach Pattern)

variable {front back text : List Char} {i m e count : Nat} {node : Node}

/-! ### Where a statement ends without semicolons -/

theorem takeWhile_of_stops (h : ∀ c, accepts c = true → larger c = true)
    (hstops : ∀ c, (back.drop (back.takeWhile accepts).length).head? = some c → larger c = false) :
    back.takeWhile larger = back.takeWhile accepts := by
  induction back with
  | nil => rfl
  | cons c rest ih =>
    by_cases hc : accepts c = true
    · rw [takeWhile_cons_of_pos hc] at hstops ⊢
      rw [takeWhile_cons_of_pos (h c hc), ih hstops]
    · rw [takeWhile_cons_of_neg hc] at hstops ⊢
      exact takeWhile_cons_of_neg (by simp [hstops c rfl])

theorem blanks_end (hws : Spans (front ++ back) ws front.length e) :
    e = front.length + (back.takeWhile fun c => " \t".toList.contains c).length := by
  have hspans := ws_spans (le_append (Nat.le_refl front.length) : _ ≤ (front ++ back).length)
  rw [drop_left] at hspans
  exact hws.unique hspans

theorem back_stops (hws : Spans (front ++ back) ws front.length e)
    (hstop : Spans (front ++ back) stop e m) : ∀ c, back.head? = some c → c ∈ stops := by
  intro c hc
  have he := hws.inside (le_append (Nat.le_refl _))
  have hends := stop_ends he hstop
  rw [blanks_end hws, Ends, drop_length_add_append] at hends
  obtain ⟨rest, rfl⟩ := head?_eq_some_iff.mp hc
  by_cases hblank : " \t".toList.contains c = true
  · have hsub : " \t".toList ⊆ stops := by decide
    exact hsub (mem_of_elem_eq_true hblank)
  · rw [takeWhile_cons_of_neg hblank] at hends
    have hsub : ['\n', '\r', '\x7d', '/'] ⊆ stops := by decide
    exact hsub (hends c rfl)

theorem ends_semicolon : Ends (front ++ ';' :: rest) [';'] front.length := by
  intro c hc
  rw [drop_left] at hc
  cases hc
  exact mem_cons_self

theorem takeWhile_semicolons (hws : Spans (front ++ back) ws front.length e)
    (hstop : Spans (front ++ back) stop e m) :
    (List.replicate count ';' ++ back).takeWhile (fun c => " \t;".toList.contains c) =
      List.replicate count ';' ++ back.takeWhile fun c => " \t".toList.contains c := by
  have hends := stop_ends (hws.inside (le_append (Nat.le_refl _))) hstop
  rw [blanks_end hws, Ends, drop_length_add_append] at hends
  rw [takeWhile_append_of_pos (by simp)]
  refine congrArg _ (takeWhile_of_stops (fun c hc => ?_) fun c hc => ?_)
  · have hsub : " \t".toList ⊆ " \t;".toList := by decide
    exact elem_eq_true_of_mem (hsub (mem_of_elem_eq_true hc))
  · have hapart : apart ['\n', '\r', '\x7d', '/'] " \t;".toList = true := by decide
    simpa using not_mem_of_apart hapart (hends c hc)

theorem semicolons_spans (hws : Spans (front ++ back) ws front.length e)
    (hstop : Spans (front ++ back) stop e m) :
    Spans (front ++ ';' :: (List.replicate count ';' ++ back)) semicolons front.length
      (e + (count + 1)) := by
  have hq : front.length ≤ (front ++ ';' :: (List.replicate count ';' ++ back)).length :=
    le_append (Nat.le_refl _)
  have hone : front.length + 1 ≤ (front ++ ';' :: (List.replicate count ';' ++ back)).length := by
    rw [length_append, length_cons]
    omega
  refine (spans_token_seq hq).mpr ⟨front.length + 1, (spans_token_seq hq).mpr
    ⟨front.length, ?_, (spans_token_lit_iff hq).mpr ?_⟩, ?_⟩
  · have hblanks := ws_spans hq
    rw [ends_semicolon.spans_eq hq hblanks (by decide)] at hblanks
    exact spans_token_name hq hblanks
  · refine ⟨_, (read_text hq _ _).trans (if_pos ?_)⟩
    rw [drop_left]
    rfl
  · have hend : e + (count + 1) = front.length + 1 + (List.replicate count ';' ++
        back.takeWhile fun c => " \t".toList.contains c).length := by
      rw [blanks_end hws, length_append, length_replicate]
      omega
    have hspans := star_spans (fun c => " \t;".toList.contains c) "';'" hone
    rw [drop_length_add_append, drop_one, tail_cons,
      takeWhile_semicolons hws hstop, ← hend] at hspans
    exact hspans

/-! ### The statement before the semicolons -/

theorem read_with_semicolons (hi : i ≤ front.length)
    (hstatement : read (front ++ back) statement i = .ok node front.length)
    (hws : Spans (front ++ back) ws front.length e) (hstop : Spans (front ++ back) stop e m) :
    read (front ++ ';' :: (List.replicate count ';' ++ back)) terminatedStatement i =
      .ok node (e + (count + 1)) := by
  have hq : front.length ≤ (front ++ ';' :: (List.replicate count ';' ++ back)).length :=
    le_append (Nat.le_refl _)
  obtain ⟨ending, hend⟩ : Spans (front ++ ';' :: (List.replicate count ';' ++ back)) statementEnd
      front.length (e + (count + 1)) :=
    spans_choice_cons.mpr (.inl (spans_fmap.mpr (semicolons_spans hws hstop)))
  have hfinished : Finished (front ++ ';' :: (List.replicate count ';' ++ back)) front.length :=
    ⟨⟨_, ending, hend⟩, ends_semicolon.eq_miss hq (by decide), ends_semicolon.eq_miss hq (by decide)⟩
  have hinserted : Inserted front back (List.replicate count ';' ++ back) :=
    inserted_semicolons (back_stops hws hstop)
  have hsame := (hinserted.statements_persist hi).1 node _ hstatement (Nat.le_refl _) hfinished
  rw [terminatedStatement, read_keep, hsame]
  dsimp only [Verdict.bind]
  rw [hend]
  rfl

theorem follows_spans {next} (h : read text statementEnd i = .ok (.follows blanks next) e) :
    Spans text ws i e ∧ ∃ m, Spans text stop e m := by
  rw [statementEnd, read_choice_cons] at h
  rcases orElse_eq_ok.mp h with hsemicolons | ⟨-, hfollows⟩
  · rw [read_fmap] at hsemicolons
    obtain ⟨_, -, hvalue⟩ := map_eq_ok.mp hsemicolons
    cases hvalue
  · rcases spans_choice_cons.mp ⟨_, hfollows⟩ with hfollows | ⟨-, hnil⟩
    · obtain ⟨k, hws, hstop⟩ := spans_ap.mp hfollows
      obtain ⟨hstop, rfl⟩ := spans_lookahead.mp hstop
      exact ⟨spans_fmap.mp hws, hstop⟩
    · exact absurd hnil spans_choice_nil

/-- A statement that ends without semicolons, before a line end, a closing brace, a comment or the
end of the text, may be followed by one or more of them: the statement is the same, and it ends
where it ended before, moved by the semicolons. -/
theorem semicolons_optional {source : List Char} {pos count : Nat} {node found : Node}
    {last stop next : Cursor} {reach reach' reach'' : Reach} {blanks : String} {mark : Option String}
    (hterminated : run? terminatedStatement source pos = some ⟨.success node last, reach⟩)
    (hstatement : run? statement source pos = some ⟨.success found stop, reach'⟩)
    (hend : run? statementEnd source stop.pos =
      some ⟨.success (.follows blanks mark) next, reach''⟩)
    (hcount : 0 < count) :
    ∃ reach, run? terminatedStatement
        (source.take stop.pos ++ List.replicate count ';' ++ source.drop stop.pos) pos =
      some ⟨.success node (Cursor.ofPos (source.take stop.pos ++ List.replicate count ';' ++
        source.drop stop.pos) (last.pos + count)), reach⟩ := by
  have hterminated : read source terminatedStatement pos = .ok node last.pos :=
    read_eq_of_run? hterminated
  have hstatement : read source statement pos = .ok found stop.pos := read_eq_of_run? hstatement
  have hend : read source statementEnd stop.pos = .ok (.follows blanks mark) next.pos :=
    read_eq_of_run? hend
  have hbounds := read_bounds hstatement (le_of_read rfl hstatement)
  obtain ⟨rfl, hlast⟩ : found = node ∧ next.pos = last.pos := by
    rw [terminatedStatement, read_keep, hstatement] at hterminated
    dsimp only [Verdict.bind] at hterminated
    rw [hend] at hterminated
    exact Verdict.ok.inj hterminated
  obtain ⟨hws, m, hstop⟩ := follows_spans hend
  rw [hlast] at hws hstop
  have hlength : (source.take stop.pos).length = stop.pos := length_take_of_le hbounds.2.1
  rw [← take_append_drop stop.pos source] at hstatement hws hstop
  cases count with
  | zero => cases hcount
  | succ count =>
    rw [replicate_succ, append_assoc, cons_append]
    refine run?_of_read (read_with_semicolons ?_ ?_ ?_ hstop) <;> rw [hlength]
    · exact hbounds.1
    · exact hstatement
    · exact hws

theorem semicolons_optional_comment : ∃ node last reach reach',
    run? terminatedStatement "x = a // b".toList 0 = some ⟨.success node last, reach⟩ ∧
    last.pos = 6 ∧
    run? terminatedStatement "x = a;; // b".toList 0 =
      some ⟨.success node (Cursor.ofPos "x = a;; // b".toList 8), reach'⟩ := by
  have hterminated : run? terminatedStatement "x = a // b".toList 0 = some ⟨.success _ _, _⟩ :=
    run?_of_plain (Cursor.on_ofPos _ 0)
      (rfl : (grammar.plain 12 12).run terminatedStatement (Cursor.ofPos _ 0) = _)
  have hstatement : run? statement "x = a // b".toList 0 = some ⟨.success _ _, _⟩ :=
    run?_of_plain (Cursor.on_ofPos _ 0)
      (rfl : (grammar.plain 12 12).run statement (Cursor.ofPos _ 0) = _)
  have hend : run? statementEnd "x = a // b".toList 5 = some ⟨.success (.follows " " "//") _, _⟩ :=
    run?_of_plain (Cursor.on_ofPos _ 5)
      (rfl : (grammar.plain 12 12).run statementEnd (Cursor.ofPos _ 5) = _)
  obtain ⟨reach', hsame⟩ := semicolons_optional hterminated hstatement hend (by decide : 0 < 2)
  exact ⟨_, _, _, reach', hterminated, rfl, hsame⟩

end AgentLang.Grammar
