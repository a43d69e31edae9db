import AgentLang.Text.Lines

/-!
# Cutting text into lines and joining it again

A text is the join of its lines, and a stretch of it that holds no line end lies within one of them.
A stretch that goes over a line end goes on with the beginning of a line.
-/

namespace AgentLang.Text

open List

variable {mark : Char} {part text : List Char} {line : String} {lines : List String}

theorem splitAt_cons_mark (mark : Char) (rest : List Char) :
    splitAt mark (mark :: rest) = [] :: splitAt mark rest :=
  if_pos rfl

theorem splitAt_cons_of_ne (hc : c ≠ mark) (hrest : splitAt mark rest = first :: others) :
    splitAt mark (c :: rest) = (c :: first) :: others := by
  have hsplit : splitAt mark (c :: rest) = _ := if_neg hc
  rw [hsplit, hrest]

theorem splitAt_eq_splitOn (mark : Char) (text : List Char) :
    splitAt mark text = text.splitOn mark := by
  induction text with
  | nil => rfl
  | cons c rest ih =>
    obtain ⟨first, others, hrest⟩ := exists_cons_of_ne_nil (splitOn_ne_nil mark rest)
    rw [splitOn_cons_eq_if_modifyHead, hrest]
    by_cases hc : c = mark
    · rw [hc, splitAt_cons_mark, ih, hrest]
      simp
    · rw [splitAt_cons_of_ne hc (ih.trans hrest)]
      simp [hc]

theorem intercalate_splitAt (mark : Char) (text : List Char) :
    [mark].intercalate (splitAt mark text) = text := by
  rw [splitAt_eq_splitOn, intercalate_splitOn]

theorem splitAt_ne_nil (mark : Char) (text : List Char) : splitAt mark text ≠ [] := by
  rw [splitAt_eq_splitOn]
  exact splitOn_ne_nil mark text

theorem splitAt_eq_singleton_iff : (∃ only, splitAt mark text = [only]) ↔ mark ∉ text := by
  induction text with
  | nil => exact ⟨fun _ => not_mem_nil, fun _ => ⟨[], rfl⟩⟩
  | cons c rest ih =>
    obtain ⟨first, others, hrest⟩ := exists_cons_of_ne_nil (splitAt_ne_nil mark rest)
    by_cases hc : c = mark
    · simp [hc, splitAt_cons_mark, hrest]
    · rw [hrest] at ih
      simpa [splitAt_cons_of_ne hc hrest, Ne.symm hc] using ih

theorem notMem_of_mem_splitAt (h : piece ∈ splitAt mark text) : mark ∉ piece := by
  induction text generalizing piece with
  | nil =>
    rw [List.mem_singleton.mp h]
    exact not_mem_nil
  | cons c rest ih =>
    obtain ⟨first, others, hrest⟩ := exists_cons_of_ne_nil (splitAt_ne_nil mark rest)
    by_cases hc : c = mark
    · rw [hc, splitAt_cons_mark] at h
      rcases mem_cons.mp h with rfl | h
      · exact not_mem_nil
      · exact ih h
    · rw [hrest] at ih
      rw [splitAt_cons_of_ne hc hrest] at h
      rcases mem_cons.mp h with rfl | h
      · rw [mem_cons, not_or]
        exact ⟨Ne.symm hc, ih mem_cons_self⟩
      · exact ih (mem_cons_of_mem _ h)

theorem lineEnd_notMem_line {text : String} (h : line ∈ Text.lines text) : '\n' ∉ line.toList := by
  obtain ⟨piece, hpiece, rfl⟩ := mem_map.mp h
  rw [String.toList_ofList]
  exact notMem_of_mem_splitAt hpiece

theorem joinLines_toList (lines : List String) :
    (joinLines lines).toList = ['\n'].intercalate (lines.map String.toList) :=
  String.toList_intercalate

theorem joinLines_lines (text : String) : joinLines (Text.lines text) = text := by
  apply String.toList_inj.mp
  rw [joinLines_toList, Text.lines, map_map]
  simpa using intercalate_splitAt '\n' text.toList

theorem joinLines_append {after} (hbefore : before ≠ []) (hafter : after ≠ []) :
    joinLines (before ++ after) = joinLines before ++ "\n" ++ joinLines after :=
  String.intercalate_append_of_ne_nil hbefore hafter

theorem prefix_of_splitAt (hsplit : splitAt mark text = first :: others) (h : part <+: text)
    (hmark : mark ∉ part) : part <+: first := by
  induction text generalizing part first others with
  | nil => simp_all
  | cons c rest ih =>
    obtain ⟨next, more, hrest⟩ := exists_cons_of_ne_nil (splitAt_ne_nil mark rest)
    cases part with
    | nil => exact nil_prefix
    | cons d tail =>
      obtain ⟨rfl, htail⟩ := cons_prefix_cons.mp h
      rw [mem_cons, not_or] at hmark
      rw [splitAt_cons_of_ne (Ne.symm hmark.1) hrest] at hsplit
      obtain ⟨rfl, -⟩ := List.cons.inj hsplit
      exact cons_prefix_cons.mpr ⟨rfl, ih hrest htail hmark.2⟩

theorem exists_infix_of_splitAt (h : part <:+: text) (hmark : mark ∉ part) :
    ∃ piece ∈ splitAt mark text, part <:+: piece := by
  induction text with
  | nil => exact ⟨[], mem_cons_self, h⟩
  | cons c rest ih =>
    obtain ⟨first, others, hsplit⟩ :=
      exists_cons_of_ne_nil (splitAt_ne_nil mark (c :: rest))
    rw [hsplit]
    rcases infix_cons_iff.mp h with hhead | hstretch
    · exact ⟨first, mem_cons_self, (prefix_of_splitAt hsplit hhead hmark).isInfix⟩
    · obtain ⟨piece, hpiece, hpart⟩ := ih hstretch
      obtain ⟨next, more, hrest⟩ := exists_cons_of_ne_nil (splitAt_ne_nil mark rest)
      rw [hrest] at hpiece
      by_cases hc : c = mark
      · rw [hc, splitAt_cons_mark, hrest] at hsplit
        obtain ⟨-, rfl⟩ := List.cons.inj hsplit
        exact ⟨piece, mem_cons_of_mem _ hpiece, hpart⟩
      · rw [splitAt_cons_of_ne hc hrest] at hsplit
        obtain ⟨rfl, rfl⟩ := List.cons.inj hsplit
        rcases mem_cons.mp hpiece with rfl | hpiece
        · exact ⟨_, mem_cons_self, hpart.trans (suffix_cons c piece).isInfix⟩
        · exact ⟨piece, mem_cons_of_mem _ hpiece, hpart⟩

/-- A stretch of a text that holds no line end lies within one of its lines. -/
theorem exists_infix_line {text : String} (h : part <:+: text.toList) (hmark : '\n' ∉ part) :
    ∃ line ∈ Text.lines text, part <:+: line.toList := by
  obtain ⟨piece, hpiece, hpart⟩ := exists_infix_of_splitAt h hmark
  exact ⟨String.ofList piece, mem_map_of_mem hpiece, by simpa using hpart⟩

theorem infix_intercalate (separator : String) (h : line ∈ lines) :
    line.toList <:+: (separator.intercalate lines).toList := by
  obtain ⟨before, after, rfl⟩ := append_of_mem h
  have htail : line.toList <+: (separator.intercalate (line :: after)).toList := by
    cases after with
    | nil => simp
    | cons next after => simp [String.append_assoc]
  by_cases hbefore : before = []
  · rw [hbefore, nil_append]
    exact htail.isInfix
  · rw [String.intercalate_append_of_ne_nil hbefore (cons_ne_nil _ _), String.toList_append]
    exact htail.isInfix.trans (suffix_append _ _).isInfix

theorem infix_joinLines (h : line ∈ lines) : line.toList <:+: (joinLines lines).toList :=
  infix_intercalate "\n" h

/-! ### Beginnings of lines -/

/-- No line behind the previous character begins with the given one. -/
def lacksStart (c : Char) : (previous : Char) → List Char → Bool
  | _, [] => true
  | previous, d :: rest => !(previous == '\n' && d == c) && lacksStart c d rest

variable {c previous : Char} {rest : List Char}

theorem lacksStart_cons : lacksStart c previous (d :: rest) =
    (!(previous == '\n' && d == c) && lacksStart c d rest) := rfl

theorem lacksStart_of_lineEnd (h : lacksStart c '\n' text = true) :
    lacksStart c previous text = true := by
  cases text with
  | nil => rfl
  | cons d rest =>
    rw [lacksStart_cons, Bool.and_eq_true] at h ⊢
    refine ⟨?_, h.2⟩
    have hd : (d == c) = false := by simpa using h.1
    rw [hd, Bool.and_false]
    rfl

theorem lacksStart_append (h : lacksStart c previous text = true)
    (hrest : lacksStart c '\n' rest = true) : lacksStart c previous (text ++ rest) = true := by
  induction text generalizing previous with
  | nil => exact lacksStart_of_lineEnd hrest
  | cons d text ih =>
    rw [lacksStart_cons, Bool.and_eq_true] at h
    rw [cons_append, lacksStart_cons, h.1, ih h.2]
    rfl

theorem lacksStart_left (h : lacksStart c previous (text ++ rest) = true) :
    lacksStart c previous text = true := by
  induction text generalizing previous with
  | nil => rfl
  | cons d text ih =>
    rw [cons_append, lacksStart_cons, Bool.and_eq_true] at h
    rw [lacksStart_cons, h.1, ih h.2]
    rfl

theorem lacksStart_dropWhile (h : lacksStart c '\n' text = true) :
    lacksStart c '\n' (text.dropWhile (· == '\n')) = true := by
  induction text with
  | nil => rfl
  | cons d text ih =>
    rw [dropWhile_cons]
    split
    next hd =>
      rw [lacksStart_cons, Bool.and_eq_true, beq_iff_eq.mp hd] at h
      exact ih h.2
    next => exact h

theorem lacksStart_of_notMem (hprevious : previous ≠ '\n') (h : '\n' ∉ text) :
    lacksStart c previous text = true := by
  induction text generalizing previous with
  | nil => rfl
  | cons d text ih =>
    rw [mem_cons, not_or] at h
    rw [lacksStart_cons, ih (Ne.symm h.1) h.2]
    simp [hprevious]

theorem not_infix_of_lacksStart (h : lacksStart c previous text = true) : ¬['\n', c] <:+: text := by
  induction text generalizing previous with
  | nil => simp
  | cons d text ih =>
    rw [lacksStart_cons, Bool.and_eq_true] at h
    rw [infix_cons_iff, not_or]
    refine ⟨fun hhead => ?_, ih h.2⟩
    obtain ⟨rfl, hnext⟩ := cons_prefix_cons.mp hhead
    obtain ⟨more, rfl⟩ := hnext
    simp [lacksStart_cons] at h

/-- No line of the text begins with the character. -/
def Lacks (c : Char) (text : String) : Prop := lacksStart c '\n' text.toList = true

instance {text : String} : Decidable (Lacks c text) := inferInstanceAs (Decidable (_ = true))

theorem Lacks.append {text other : String} (h : Lacks c text) (hother : Lacks c other) :
    Lacks c (text ++ other) := by
  rw [Lacks, String.toList_append]
  exact lacksStart_append h hother

/-- A text that is written out unifies with this form, so that it need not be decoded. -/
theorem lacks_ofList (h : lacksStart c '\n' chars = true) : Lacks c (String.ofList chars) := by
  rwa [Lacks, String.toList_ofList]

theorem lacks_intercalate (hseparator : Lacks c separator) (h : ∀ text ∈ texts, Lacks c text) :
    Lacks c (separator.intercalate texts) := by
  induction texts with
  | nil => exact lacks_ofList rfl
  | cons first rest ih =>
    obtain ⟨hfirst, hrest⟩ := forall_mem_cons.mp h
    cases rest with
    | nil => rwa [String.intercalate_singleton]
    | cons second others =>
      rw [String.intercalate_cons_cons]
      exact (hfirst.append hseparator).append (ih hrest)

theorem lacks_joinLines (hc : c ≠ '\n') (h : ∀ line ∈ lines, Lacks c line) :
    Lacks c (joinLines lines) :=
  lacks_intercalate (lacks_ofList (by simp [lacksStart, hc.symm])) h

end AgentLang.Text
