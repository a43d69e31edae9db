import AgentLang.Parse.Run
import AgentLang.Target.Literal

/-!
# What a literal of the emitted code says

A literal is read twice: once for its closing mark, and once for what stands between the marks. The
first reading finds the mark at the very end, and the second finds the interpolated names and the
units of the text, each in its place.
-/

namespace AgentLang.Target

open List

/-! ### Reading -/

/-- What one reads in a text: a character, a backslash with the character after it, or a name. -/
inductive Piece where
  | char (c : Char)
  | escape (c : Char)
  | field (name : String)
deriving DecidableEq, Repr

/-- Every backslash has its own next character. -/
def paired : List Char → Bool
  | '\\' :: _ :: rest => paired rest
  | c :: rest => c != '\\' && paired rest
  | [] => true

/-- The units of a text of the source language. -/
def units : List Char → List Piece
  | '\\' :: c :: rest => .escape c :: units rest
  | c :: rest => .char c :: units rest
  | [] => []

/-- How many characters stand before the first mark. A backslash protects the next character. -/
def closing? (mark : List Char) : List Char → Option Nat
  | '\\' :: _ :: rest => (closing? mark rest).map (· + 2)
  | c :: rest =>
    if mark.isPrefixOf (c :: rest) then some 0 else (closing? mark rest).map (· + 1)
  | [] => none

/-- What the body of a literal says; inside a field, `name` is what has been read of it. In a
formatted literal a brace is written twice, one that stands alone opens or closes a field, and a
backslash before a brace is a character. -/
def pieces? (formatted : Bool) : (name : Option (List Char)) → List Char → Option (List Piece)
  | some _, [] => none
  | some name, c :: rest =>
    if c = '\x7d' then (pieces? formatted none rest).map (.field (String.ofList name) :: ·)
    else pieces? formatted (some (name ++ [c])) rest
  | none, [] => some []
  | none, ['\\'] => none
  | none, '\\' :: c :: rest =>
    if formatted && isBrace c then (pieces? formatted none (c :: rest)).map (.char '\\' :: ·)
    else (pieces? formatted none rest).map (.escape c :: ·)
  | none, [c] => if formatted && isBrace c then none else some [.char c]
  | none, c :: d :: rest =>
    if formatted && isBrace c then
      if d = c then (pieces? formatted none rest).map (.char c :: ·)
      else if c = '\x7b' then pieces? formatted (some []) (d :: rest)
      else none
    else (pieces? formatted none (d :: rest)).map (.char c :: ·)

/-- What a unit of the source language says in a literal. -/
def spelled (formatted multiline : Bool) : Piece → List Piece
  | .escape c =>
    if c = '$' || c = '`' then [.char c]
    else if formatted && isBrace c then [.char '\\', .char c]
    else [.escape c]
  | .char c =>
    if c = '"' then [.escape '"']
    else if c = '\n' && !multiline then [.escape 'n']
    else if c = '\r' then [.escape 'r']
    else [.char c]
  | .field name => [.field name]

/-- The units of a segment. -/
def segmentUnits : Segment → List Piece
  | .interpolation name => [.field name]
  | .text value => units value.toList

/-! ### Unit by unit -/

/-- How a unit of the source language is written in a literal. -/
def written (formatted multiline : Bool) : Piece → List Char
  | .escape c =>
    (if c = '$' || c = '`' then [c] else ['\\', c]) ++ if formatted && isBrace c then [c] else []
  | .char c =>
    if c = '"' then ['\\', '"']
    else if c = '\n' && !multiline then ['\\', 'n']
    else if c = '\r' then ['\\', 'r']
    else if formatted && isBrace c then [c, c]
    else [c]
  | .field name => '\x7b' :: name.toList ++ ['\x7d']

/-- A backslash is not a unit of its own, and fields with proper names occur in formatted literals
only. -/
def Piece.Sound (formatted : Bool) : Piece → Prop
  | .char c => c ≠ '\\'
  | .escape _ => True
  | .field name => formatted = true ∧ name.toList.all Parse.Engine.isWordChar = true

variable {formatted multiline : Bool} {text body tail name : List Char} {unit : Piece}
  {segments : List Segment}

theorem escapeText_eq (text : List Char) :
    escapeText formatted multiline text = (units text).flatMap (written formatted multiline) := by
  fun_induction escapeText formatted multiline text with
  | case1 c rest kept doubled ih => rw [units, flatMap_cons, ← ih, written]
  | case2 c rest hpair shown ih =>
    rw [units, flatMap_cons, ← ih, written]
    exact hpair
  | case3 => rfl

theorem segmentText_eq (segment : Segment) :
    segmentText formatted multiline segment =
      (segmentUnits segment).flatMap (written formatted multiline) := by
  cases segment with
  | text value => exact escapeText_eq value.toList
  | interpolation name => simp [segmentText, segmentUnits, written]

theorem sound_units (h : paired text = true) : ∀ unit ∈ units text, unit.Sound formatted := by
  fun_induction units text with
  | case1 c rest ih => exact forall_mem_cons.mpr ⟨trivial, ih h⟩
  | case2 c rest hpair ih =>
    have hcons : paired (c :: rest) = (c != '\\' && paired rest) := by
      rw [paired]
      exact hpair
    rw [hcons, Bool.and_eq_true, bne_iff_ne] at h
    exact forall_mem_cons.mpr ⟨h.1, ih h.2⟩
  | case3 => simp

/-! ### The closing mark -/

/-- No quotation mark stands unprotected, and every backslash has its own next character. -/
def guarded : List Char → Bool
  | '\\' :: _ :: rest => guarded rest
  | c :: rest => c != '\\' && c != '"' && guarded rest
  | [] => true

section

attribute [local simp] guarded

theorem guarded_append (h : guarded body = true) : guarded (body ++ tail) = guarded tail := by
  fun_induction guarded body with
  | case1 c rest ih => simpa using ih h
  | case2 c rest hne ih =>
    simp only [Bool.and_eq_true, bne_iff_ne] at h
    obtain ⟨⟨hc, hquote⟩, hrest⟩ := h
    simp [hc, hquote, ih hrest]
  | case3 => rfl

theorem guarded_plain (hslash : c ≠ '\\') (hquote : c ≠ '"') (rest : List Char) :
    guarded (c :: rest) = guarded rest := by
  simp [hslash, hquote]

theorem ne_of_isBrace (h : isBrace c = true) : c ≠ '\\' ∧ c ≠ '"' := by
  constructor <;> rintro rfl <;> exact absurd h (by decide)

theorem ne_of_isWordChar (h : Parse.Engine.isWordChar c = true) :
    c ≠ '\\' ∧ c ≠ '"' ∧ c ≠ '\x7b' ∧ c ≠ '\x7d' := by
  refine ⟨?_, ?_, ?_, ?_⟩ <;> rintro rfl <;> exact absurd h (by decide)

theorem guarded_word (h : text.all Parse.Engine.isWordChar = true) : guarded text = true := by
  induction text with
  | nil => rfl
  | cons c rest ih =>
    simp only [all_cons, Bool.and_eq_true] at h
    obtain ⟨hslash, hquote, -⟩ := ne_of_isWordChar h.1
    rw [guarded_plain hslash hquote, ih h.2]

theorem guarded_written (h : unit.Sound formatted) :
    guarded (written formatted multiline unit) = true := by
  cases unit with
  | field name =>
    rw [written, cons_append, guarded_plain (by decide) (by decide),
      guarded_append (guarded_word h.2)]
    rfl
  | escape c =>
    have hkept : guarded (if c = '$' || c = '`' then [c] else ['\\', c]) = true := by
      split
      · next hc => rcases Bool.or_eq_true_iff.mp hc with hc | hc <;> simp_all
      · rfl
    rw [written, guarded_append hkept]
    split
    · next hc =>
      obtain ⟨hslash, hquote⟩ := ne_of_isBrace (Bool.and_eq_true_iff.mp hc).2
      rw [guarded_plain hslash hquote, guarded]
    · rfl
  | char c =>
    have hslash : c ≠ '\\' := h
    by_cases hquote : c = '"'
    · simp [written, hquote]
    · simp only [written, if_neg hquote]
      split
      · rfl
      split
      · rfl
      split <;> simp [hslash, hquote]

end

theorem guarded_flatMap {us : List Piece} (h : ∀ unit ∈ us, unit.Sound formatted) :
    guarded (us.flatMap (written formatted multiline)) = true := by
  induction us with
  | nil => rfl
  | cons unit rest ih =>
    obtain ⟨hunit, hrest⟩ := forall_mem_cons.mp h
    rw [flatMap_cons, guarded_append (guarded_written hunit), ih hrest]

theorem closing?_guarded {mark : List Char} (hmark : mark = '"' :: more) (h : guarded body = true) :
    closing? mark (body ++ mark) = some body.length := by
  fun_induction guarded body with
  | case1 c rest ih => simp [closing?, ih h]
  | case2 c rest hpair ih =>
    simp only [Bool.and_eq_true, bne_iff_ne] at h
    obtain ⟨⟨hslash, hquote⟩, hrest⟩ := h
    have hstart : mark.isPrefixOf (c :: (rest ++ mark)) = false := by
      simp [hmark, List.isPrefixOf, Ne.symm hquote]
    simp [closing?, hslash, hstart, ih hrest]
  | case3 => simp [hmark, closing?]

/-! ### What stands between the marks -/

section

attribute [local simp] pieces?

theorem pieces?_plain (hslash : c ≠ '\\') (hbrace : (formatted && isBrace c) = false) :
    pieces? formatted none (c :: tail) = (pieces? formatted none tail).map (.char c :: ·) := by
  cases tail <;> simp [hbrace]

theorem pieces?_escape (hbrace : (formatted && isBrace c) = false) :
    pieces? formatted none ('\\' :: c :: tail) =
      (pieces? formatted none tail).map (.escape c :: ·) := by
  simp [hbrace]

theorem pieces?_brace (hbrace : (formatted && isBrace c) = true) :
    pieces? formatted none (c :: c :: tail) =
      (pieces? formatted none tail).map (.char c :: ·) := by
  have hslash := (ne_of_isBrace (Bool.and_eq_true_iff.mp hbrace).2).1
  simp [hbrace]

theorem pieces?_slash_brace (hbrace : (formatted && isBrace c) = true) :
    pieces? formatted none ('\\' :: c :: tail) =
      (pieces? formatted none (c :: tail)).map (.char '\\' :: ·) := by
  simp [hbrace]

theorem pieces?_name (h : text.all Parse.Engine.isWordChar = true) :
    pieces? formatted (some name) (text ++ '\x7d' :: tail) =
      (pieces? formatted none tail).map (.field (String.ofList (name ++ text)) :: ·) := by
  induction text generalizing name with
  | nil => simp
  | cons c rest ih =>
    simp only [all_cons, Bool.and_eq_true] at h
    obtain ⟨-, -, -, hclose⟩ := ne_of_isWordChar h.1
    simp [hclose, ih h.2]

theorem pieces?_field (h : text.all Parse.Engine.isWordChar = true) :
    pieces? true none ('\x7b' :: text ++ '\x7d' :: tail) =
      (pieces? true none tail).map (.field (String.ofList text) :: ·) := by
  have hopen : ∀ d rest, d ≠ '\x7b' →
      pieces? true none ('\x7b' :: d :: rest) = pieces? true (some []) (d :: rest) := by
    intro d rest hd
    simp [hd, isBrace]
  rw [← nil_append text, ← pieces?_name h]
  cases text with
  | nil => exact hopen _ _ (by decide)
  | cons c rest =>
    simp only [all_cons, Bool.and_eq_true] at h
    exact hopen _ _ (ne_of_isWordChar h.1).2.2.1

end

theorem pieces?_written (h : unit.Sound formatted) :
    pieces? formatted none (written formatted multiline unit ++ tail) =
      (pieces? formatted none tail).map (spelled formatted multiline unit ++ ·) := by
  cases unit with
  | field name =>
    obtain ⟨rfl, hname⟩ := h
    rw [written, append_assoc, singleton_append, pieces?_field hname, String.ofList_toList]
    rfl
  | escape c =>
    by_cases hsource : (c = '$' || c = '`') = true
    · have hplain : c ≠ '\\' ∧ isBrace c = false := by
        rcases Bool.or_eq_true_iff.mp hsource with hc | hc <;> rw [of_decide_eq_true hc] <;> decide
      simp [written, spelled, hsource, hplain.2, pieces?_plain hplain.1]
    by_cases hbrace : (formatted && isBrace c) = true
    · simp [written, spelled, hsource, hbrace, pieces?_slash_brace hbrace, pieces?_brace hbrace,
        Function.comp_def]
    · rw [Bool.not_eq_true] at hbrace
      simp [written, spelled, hsource, hbrace, pieces?_escape hbrace]
  | char c =>
    have hslash : c ≠ '\\' := h
    -- The escapes that a literal needs are no braces.
    have hletter : ∀ d ∈ ['"', 'n', 'r'], (formatted && isBrace d) = false := by
      simp [isBrace]
    by_cases hquote : c = '"'
    · simp [written, spelled, hquote, pieces?_escape (hletter '"' (by simp))]
    by_cases hline : (c = '\n' && !multiline) = true
    · simp [written, spelled, hquote, hline, pieces?_escape (hletter 'n' (by simp))]
    by_cases hreturn : c = '\r'
    · simp [written, spelled, hreturn, pieces?_escape (hletter 'r' (by simp))]
    by_cases hbrace : (formatted && isBrace c) = true
    · simp [written, spelled, hquote, hline, hreturn, hbrace, pieces?_brace hbrace]
    · rw [Bool.not_eq_true] at hbrace
      simp [written, spelled, hquote, hline, hreturn, hbrace, pieces?_plain hslash hbrace]

theorem pieces?_flatMap {us : List Piece} (h : ∀ unit ∈ us, unit.Sound formatted) :
    pieces? formatted none (us.flatMap (written formatted multiline)) =
      some (us.flatMap (spelled formatted multiline)) := by
  induction us with
  | nil => rfl
  | cons unit rest ih =>
    obtain ⟨hunit, hrest⟩ := forall_mem_cons.mp h
    rw [flatMap_cons, pieces?_written hunit, ih hrest]
    rfl

/-! ### The literal of segments -/

/-- A text pairs its backslashes, and a name is a word. -/
def proper : Segment → Bool
  | .text value => paired value.toList
  | .interpolation name => name.toList.all Parse.Engine.isWordChar

/-- The mark on both sides of a literal. -/
def mark (multiline : Bool) : List Char :=
  if multiline then ['"', '"', '"'] else ['"']

theorem mark_eq (multiline : Bool) : ∃ more, mark multiline = '"' :: more := by
  cases multiline
  · exact ⟨[], rfl⟩
  · exact ⟨['"', '"'], rfl⟩

theorem sound_segments (h : segments.all proper = true) :
    ∀ unit ∈ segments.flatMap segmentUnits, unit.Sound (segments.any isInterpolation) := by
  intro unit hunit
  obtain ⟨segment, hsegment, hunit⟩ := mem_flatMap.mp hunit
  have hproper := all_eq_true.mp h segment hsegment
  cases segment with
  | text value => exact sound_units hproper unit hunit
  | interpolation name =>
    rw [segmentUnits, List.mem_singleton] at hunit
    rw [hunit]
    exact ⟨any_eq_true.mpr ⟨_, hsegment, rfl⟩, hproper⟩

theorem stringLiteral_toList (segments : List Segment) (multiline : Bool) :
    (stringLiteral segments multiline).toList =
      (if segments.any isInterpolation then ['f'] else []) ++ mark multiline ++
        (segments.flatMap segmentUnits).flatMap
          (written (segments.any isInterpolation) multiline) ++ mark multiline := by
  have hbody : segments.flatMap (segmentText (segments.any isInterpolation) multiline) =
      (segments.flatMap segmentUnits).flatMap
        (written (segments.any isInterpolation) multiline) := by
    rw [flatMap_assoc]
    exact congrArg segments.flatMap (funext segmentText_eq)
  rw [stringLiteral, hbody]
  cases segments.any isInterpolation <;> cases multiline <;> simp [mark]

/-- The closing mark of a literal is the first mark after the opening one, and what stands between
them says what the segments say, in their order. -/
theorem stringLiteral_read (segments : List Segment) (multiline : Bool)
    (h : segments.all proper = true) :
    ∃ body, (stringLiteral segments multiline).toList =
        (if segments.any isInterpolation then ['f'] else []) ++ mark multiline ++ body ++
          mark multiline ∧
      closing? (mark multiline) (body ++ mark multiline) = some body.length ∧
      pieces? (segments.any isInterpolation) none body =
        some ((segments.flatMap segmentUnits).flatMap
          (spelled (segments.any isInterpolation) multiline)) := by
  have hsound := sound_segments h
  obtain ⟨more, hmark⟩ := mark_eq multiline
  exact ⟨_, stringLiteral_toList segments multiline,
    closing?_guarded hmark (guarded_flatMap hsound), pieces?_flatMap hsound⟩

/-- Escaped braces and bare marks around a field, and a backslash for each of two. -/
theorem stringLiteral_read_braces :
    [.text "\\\x7b\"", .interpolation "x", .text "\x7d\\$\\\\\n"].all proper = true ∧
    ∃ body, (stringLiteral [.text "\\\x7b\"", .interpolation "x", .text "\x7d\\$\\\\\n"]
        false).toList = ['f'] ++ ['"'] ++ body ++ ['"'] ∧
      closing? ['"'] (body ++ ['"']) = some body.length ∧
      pieces? true none body = some [.char '\\', .char '\x7b', .escape '"', .field "x",
        .char '\x7d', .char '$', .escape '\\', .escape 'n'] :=
  ⟨by decide, stringLiteral_read _ false (by decide)⟩

end AgentLang.Target
