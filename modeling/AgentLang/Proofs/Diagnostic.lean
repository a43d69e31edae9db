import AgentLang.Diagnostic
import AgentLang.Proofs.Text.Lines
import Mathlib

/-!
# Diagnostics point at the failing character

The line and the column of an offset are the only ones at which that many characters precede. An
excerpt shows the lines around that line under their own numbers, and the marker stands below the
column.
-/

namespace AgentLang

/-! ### Lines and columns -/

/-- So many characters of the text stand before a column of a line, and the line is that long. Both
are counted from zero here, and each line before ends in one character more. -/
def Precedes (lines : List (List Char)) (count row column : Nat) : Prop :=
  ∃ line, lines[row]? = some line ∧ column ≤ line.length ∧
    ((lines.take row).map (·.length + 1)).sum + column = count

theorem Precedes.unique (h : Precedes lines count row column)
    (h' : Precedes lines count row' column') : row = row' ∧ column = column' := by
  induction lines generalizing count row row' with
  | nil =>
    obtain ⟨line, hline, -⟩ := h
    cases hline
  | cons first rest ih =>
    obtain ⟨line, hline, hle, hcount⟩ := h
    obtain ⟨line', hline', hle', hcount'⟩ := h'
    cases row with
    | zero =>
      cases row' with
      | zero => simp_all
      | succ row' =>
        obtain rfl := Option.some.inj hline
        simp at hcount hcount'
        omega
    | succ row =>
      cases row' with
      | zero =>
        obtain rfl := Option.some.inj hline'
        simp at hcount hcount'
        omega
      | succ row' =>
        simp only [List.take_succ_cons, List.map_cons, List.sum_cons] at hcount hcount'
        have hrest : Precedes rest (count - (first.length + 1)) row column :=
          ⟨line, hline, hle, by omega⟩
        have hequal := ih hrest ⟨line', hline', hle', by omega⟩
        exact ⟨congrArg (· + 1) hequal.1, hequal.2⟩

theorem Precedes.newline (h : Precedes lines count row column) :
    Precedes ([] :: lines) (count + 1) (row + 1) column := by
  obtain ⟨line, hline, hle, hcount⟩ := h
  refine ⟨line, hline, hle, ?_⟩
  rw [List.take_succ_cons, List.map_cons, List.sum_cons, ← hcount, List.length_nil]
  omega

theorem Precedes.lengthen (h : Precedes (first :: others) count row column) (c : Char) :
    Precedes ((c :: first) :: others) (count + 1) row (if row = 0 then column + 1 else column) := by
  obtain ⟨line, hline, hle, hcount⟩ := h
  cases row with
  | zero =>
    obtain rfl := Option.some.inj hline
    exact ⟨c :: first, rfl, Nat.succ_le_succ hle, congrArg (· + 1) hcount⟩
  | succ row =>
    refine ⟨line, hline, hle, ?_⟩
    rw [List.take_succ_cons, List.map_cons, List.sum_cons] at hcount ⊢
    rw [if_neg (Nat.succ_ne_zero row), List.length_cons]
    omega

theorem lastLine_cons (c : Char) (before : List Char) :
    ((c :: before).reverse.takeWhile (· != '\n')).length =
      if c ≠ '\n' ∧ before.count '\n' = 0 then
        (before.reverse.takeWhile (· != '\n')).length + 1
      else (before.reverse.takeWhile (· != '\n')).length := by
  rw [List.reverse_cons, List.takeWhile_append]
  by_cases hmem : '\n' ∈ before
  · have hstops : (before.reverse.takeWhile (· != '\n')).length ≠ before.reverse.length := by
      intro hlength
      have hstart : before.reverse.takeWhile (· != '\n') <+: before.reverse :=
        List.takeWhile_prefix _
      have hall := hstart.eq_of_length hlength
      simpa using List.takeWhile_eq_self_iff.mp hall '\n' (List.mem_reverse.mpr hmem)
    rw [if_neg hstops, if_neg fun h => List.count_eq_zero.mp h.2 hmem]
  · have hall : before.reverse.takeWhile (· != '\n') = before.reverse :=
      List.takeWhile_eq_self_iff.mpr fun d hd => bne_iff_ne.mpr fun hfeed =>
        hmem (hfeed ▸ List.mem_reverse.mp hd)
    rw [hall, if_pos rfl, List.length_append]
    by_cases hc : c = '\n' <;> simp [hc, List.count_eq_zero.mpr hmem]

theorem precedes_take (source : List Char) (h : count ≤ source.length) :
    Precedes (Text.splitAt '\n' source) count ((source.take count).count '\n')
      ((source.take count).reverse.takeWhile (· != '\n')).length := by
  induction source generalizing count with
  | nil =>
    obtain rfl := Nat.le_zero.mp h
    exact ⟨[], rfl, Nat.le_refl _, rfl⟩
  | cons c rest ih =>
    obtain ⟨first, others, hrest⟩ := List.exists_cons_of_ne_nil (Text.splitAt_ne_nil '\n' rest)
    cases count with
    | zero =>
      rw [Text.splitAt, hrest]
      split <;> exact ⟨_, rfl, Nat.zero_le _, rfl⟩
    | succ count =>
      have hbefore := ih (Nat.le_of_succ_le_succ h)
      rw [List.take_succ_cons, lastLine_cons, Text.splitAt]
      by_cases hc : c = '\n'
      · rw [hc, List.count_cons_self]
        simpa using hbefore.newline
      · rw [hrest] at hbefore ⊢
        rw [List.count_cons_of_ne hc]
        simpa [hc] using hbefore.lengthen c

/-- The line and the column of an offset, in words of the characters before it. -/
def Locates (source : List Char) (offset line column : Nat) : Prop :=
  0 < line ∧ 0 < column ∧ Precedes (Text.splitAt '\n' source) offset (line - 1) (column - 1)

theorem lineAndColumn_iff :
    lineAndColumn source position = (line, column) ↔
      Locates source (min position source.length).toNat line column := by
  have hoffset : (min position source.length).toNat ≤ source.length := by omega
  have hplace := precedes_take source hoffset
  constructor
  · intro h
    obtain ⟨rfl, rfl⟩ := Prod.mk.inj h
    exact ⟨Nat.succ_pos _, Nat.succ_pos _, hplace⟩
  · rintro ⟨hline, hcolumn, h⟩
    obtain ⟨hrow, hcol⟩ := hplace.unique h
    rw [lineAndColumn, Prod.mk.injEq]
    omega

/-! ### Excerpts -/

namespace Excerpt

/-- A line behind its number, and the marker below its column if it is the failing one. -/
def numbered (line column : Nat) (shown : String × Nat) : List String :=
  (margin shown.2 ++ shown.1) ::
    if shown.2 = line then [blanks ((margin shown.2).length + column - 1) ++ "^^^"] else []

theorem annotate_eq (line column number : Nat) (lines : List String) :
    annotate line column number lines = (lines.zipIdx number).flatMap (numbered line column) := by
  induction lines generalizing number with
  | nil => rfl
  | cons text rest ih =>
    have hmarker : ((margin number).length + column - 1 : Int).toNat =
      (margin number).length + column - 1 := by omega
    rw [annotate, List.zipIdx_cons, List.flatMap_cons, ← ih, numbered, hmarker]
    simp only [Nat.cast_inj, Nat.cast_add, Nat.cast_one]
    split <;> rfl

end Excerpt

/-- The lines of a window keep their numbers. -/
theorem zipIdx_window (lines : List String) :
    (lines.zipIdx number).filter (fun shown => first ≤ shown.2 && shown.2 ≤ last) =
      ((lines.take (last + 1 - number)).drop (first - number)).zipIdx (max first number) := by
  induction lines generalizing number with
  | nil => simp
  | cons text rest ih =>
    rw [List.zipIdx_cons, List.filter_cons, ih]
    by_cases hlast : number ≤ last
    · have htake : last + 1 - number = last + 1 - (number + 1) + 1 := by omega
      rw [htake, List.take_succ_cons]
      by_cases hfirst : first ≤ number
      · simp [hfirst, hlast, Nat.le_succ_of_le hfirst]
      · have hdrop : first - number = first - (number + 1) + 1 := by omega
        have hnumber : max first (number + 1) = max first number := by omega
        simp [hfirst, hdrop, hnumber]
    · have htake : last + 1 - number = 0 ∧ last + 1 - (number + 1) = 0 := by omega
      simp [hlast, htake]

theorem Text.lines_joinLines {lines : List String} (hne : lines ≠ [])
    (h : ∀ line ∈ lines, '\n' ∉ line.toList) : Text.lines (Text.joinLines lines) = lines := by
  rw [Text.lines, Text.joinLines_toList, Text.splitAt_eq_splitOn,
    List.splitOn_intercalate '\n' (by simpa using h) (by simpa using hne), List.map_map]
  simp [Function.comp_def]

/-- The snippet of a line of the source holds that line and those around it. -/
theorem lines_snippetAround {source : String} (hline : 0 < line)
    (hle : line ≤ (Text.lines source).length) :
    Text.lines (snippetAround source line) =
      ((Text.lines source).take (line + 2)).drop (max 1 (line - 2) - 1) := by
  refine Text.lines_joinLines (fun hnone => ?_) fun shown hshown => ?_
  · have hlength := List.drop_eq_nil_iff.mp hnone
    rw [List.length_take] at hlength
    omega
  · exact Text.lineEnd_notMem_line (List.mem_of_mem_take (List.mem_of_mem_drop hshown))

theorem snippetAround_ne_empty (hsource : source ≠ "") (hline : 0 < line)
    (hle : line ≤ (Text.lines source).length) : snippetAround source line ≠ "" := by
  intro hempty
  have hlines := lines_snippetAround hline hle
  have hnone : Text.lines "" = [""] := rfl
  rw [hempty, hnone] at hlines
  -- Two lines or more always leave two in the window.
  have hlength := congrArg List.length hlines
  rw [List.length_drop, List.length_take, List.length_singleton] at hlength
  obtain rfl : line = 1 := by omega
  rw [List.take_of_length_le (by omega)] at hlines
  apply hsource
  rw [← Text.joinLines_lines source, ← (show [""] = Text.lines source from hlines)]
  rfl

/-- The lines of a source with their numbers, from two before to two after a line. -/
def shownAround (source : String) (line : Nat) : List (String × Nat) :=
  ((Text.lines source).zipIdx 1).filter fun shown =>
    max 1 (line - 2) ≤ shown.2 && shown.2 ≤ min (Text.lines source).length (line + 2)

theorem shownAround_eq (hline : 0 < line) (hle : line ≤ (Text.lines source).length) :
    shownAround source line =
      (Text.lines (snippetAround source line)).zipIdx (max 1 (line - 2)) := by
  have htake : (Text.lines source).take (min (Text.lines source).length (line + 2)) =
      (Text.lines source).take (line + 2) := by
    rw [List.take_eq_take_iff]
    omega
  rw [shownAround, zipIdx_window, lines_snippetAround hline hle, Nat.add_sub_cancel, htake,
    Nat.max_eq_left (Nat.le_max_left 1 (line - 2))]

theorem Excerpt.toText_around {file : Path} {source : String} {line : Nat}
    (hsource : source ≠ "") (hline : 0 < line) (hle : line ≤ (Text.lines source).length)
    (column : Nat) :
    (Excerpt.mk file line column (some (snippetAround source line))).toText =
      Text.joinLines ((file.toText ++ ":" ++ Nat.repr line ++ ":" ++ Nat.repr column) ::
        (shownAround source line).flatMap (numbered line column)) := by
  have hfirst : firstLine line = (max 1 (line - 2) : Nat) := by
    unfold firstLine
    omega
  have hne := snippetAround_ne_empty hsource hline hle
  have hshown : (shownAround source line).flatMap (numbered line column) =
      annotate line column (firstLine line) (Text.lines (snippetAround source line)) := by
    rw [shownAround_eq hline hle, hfirst, annotate_eq]
  obtain ⟨first, others, hlines⟩ :
      ∃ first others, Text.lines (snippetAround source line) = first :: others :=
    List.exists_cons_of_ne_nil (by simpa [Text.lines] using Text.splitAt_ne_nil _ _)
  unfold toText
  dsimp only
  split
  next h => cases h
  next h => exact absurd (Option.some.inj h) hne
  next snippet h =>
    obtain rfl := Option.some.inj h
    rw [hshown, Text.joinLines, Text.joinLines, String.intercalate_cons_of_ne_nil]
    · rfl
    · rw [hfirst, annotate_eq, hlines, List.zipIdx_cons, List.flatMap_cons, numbered]
      exact List.cons_ne_nil _ _

namespace ParseError

/-- The line and the column of an error are the only ones before which all the characters up to its
offset stand. Its excerpt consists of the place, then of the lines from two before to two after that
line, as far as there are such lines, each behind its own number. Below the line itself stands a
marker, which begins under the column. -/
theorem excerpt_points_at_offset :
    (∀ (source : List Char) (position : Int) (line column : Nat),
      lineAndColumn source position = (line, column) ↔
        Locates source (min position source.length).toNat line column) ∧
    ∀ e : ParseError, e.source ≠ "" → ∀ line column, e.place = (line, column) →
      max 1 (line - 2) ≤ line ∧ line ≤ min (Text.lines e.source).length (line + 2) ∧
      ∃ excerpt, e.excerpt? = some excerpt ∧
        excerpt.toText = Text.joinLines
          (((e.file.getD (.ofText "<input>")).toText ++ ":" ++ Nat.repr line ++ ":" ++
              Nat.repr column) ::
            (shownAround e.source line).flatMap (Excerpt.numbered line column)) := by
  refine ⟨fun _ _ _ _ => lineAndColumn_iff, fun e hsource line column hplace => ?_⟩
  obtain ⟨hline, -, text, htext, -⟩ := lineAndColumn_iff.mp hplace
  have hle : line ≤ (Text.lines e.source).length := by
    have hlt := (List.getElem?_eq_some_iff.mp htext).1
    rw [Text.lines, List.length_map]
    omega
  refine ⟨by omega, by omega, _, by rw [excerpt?, if_neg hsource, hplace], ?_⟩
  exact Excerpt.toText_around hsource hline hle column

theorem excerpt_points_at_offset_empty_line :
    let e : ParseError := ⟨"m", 7, ∅, "a = 1\n\n\nb\nc", none⟩
    e.source ≠ "" ∧ e.place = (3, 1) ∧
      ∃ excerpt, e.excerpt? = some excerpt ∧ excerpt.toText = Text.joinLines
        ["<input>:3:1", "   1 | a = 1", "   2 | ", "   3 | ", "       ^^^", "   4 | b", "   5 | c"] := by
  intro e
  have hplace : e.place = (3, 1) := by decide
  obtain ⟨-, -, excerpt, hexcerpt, htext⟩ :=
    excerpt_points_at_offset.2 e (by decide) 3 1 hplace
  exact ⟨by decide, hplace, excerpt, hexcerpt, htext.trans (by decide)⟩

end ParseError
end AgentLang
