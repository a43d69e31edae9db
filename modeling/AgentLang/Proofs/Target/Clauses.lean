import AgentLang.Target.Stmt
import Mathlib.Data.List.Basic

/-!
# Reading chains of branches

Emitted lines are read back as clauses: a header at the margin with the indented lines behind it.
What a chain of clauses runs depends on the words that its headers begin with, and on which of its
conditions hold.
-/

namespace AgentLang.Target

open List

/-! ### Clauses -/

/-- A line at the margin with the lines that belong to it. -/
structure Clause where
  header : String
  block : List String

/-- A line that belongs to the header before it. -/
def isInner (line : String) : Bool :=
  line.isEmpty || line.toList.head? == some ' '

/-- A comment at the margin. -/
def isNote (line : String) : Bool :=
  line.toList.head? == some '#'

/-- Lines without comments at the margin, cut at the others that stand there. -/
def cut : List String → List Clause
  | [] => []
  | line :: rest =>
    if isInner line then cut rest else ⟨line, rest.takeWhile isInner⟩ :: cut rest

/-- The clauses of some lines. Comments at the margin belong to none of them. -/
def clauses (lines : List String) : List Clause :=
  cut (lines.filter (!isNote ·))

theorem cut_append {inner : List String} (h : ∀ line ∈ inner, isInner line) (rest : List String) :
    cut (inner ++ rest) = cut rest := by
  induction inner with
  | nil => rfl
  | cons line others ih =>
    rw [forall_mem_cons] at h
    rw [cons_append, cut, if_pos h.1, ih h.2]

theorem isInner_indentLine (line : String) : isInner (indentLine line) := by
  unfold isInner indentLine
  split <;> simp

theorem isInner_of_mem_block : ∀ line ∈ block lines, isInner line := by
  intro line hline
  obtain ⟨plain, -, rfl⟩ := mem_map.mp hline
  exact isInner_indentLine plain

theorem isNote_eq_false (h : isInner line) : isNote line = false := by
  have hcases : line = "" ∨ line.toList.head? = some ' ' := by simpa [isInner] using h
  rcases hcases with rfl | hhead
  · rfl
  · simp [isNote, hhead]

/-- Headers do not belong to the lines before them, and are no comments. -/
def isHeader (line : String) : Bool := !isInner line && !isNote line

theorem filter_note_block (lines : List String) :
    (block lines).filter (!isNote ·) = block lines := by
  refine filter_eq_self.mpr fun line hline => ?_
  rw [isNote_eq_false (isInner_of_mem_block line hline)]
  rfl

/-- But for comments, the first of the lines stands at the margin. -/
def AtMargin (lines : List String) : Prop :=
  ∀ line ∈ (lines.filter (!isNote ·)).head?, isInner line = false

theorem atMargin_nil : AtMargin [] := nofun

theorem atMargin_cons (h : isHeader line) (rest : List String) : AtMargin (line :: rest) := by
  obtain ⟨hmargin, hcode⟩ : isInner line = false ∧ isNote line = false := by
    simpa [isHeader] using h
  intro first hfirst
  rw [filter_cons_of_pos (by simp [hcode])] at hfirst
  exact Option.some.inj hfirst ▸ hmargin

theorem AtMargin.behind_note (h : isNote line) (hrest : AtMargin rest) :
    AtMargin (line :: rest) := by
  unfold AtMargin
  rw [filter_cons_of_neg (by simp [h])]
  exact hrest

/-- A header comes with its block where something at the margin follows, or nothing. -/
theorem clauses_cons (hheader : isHeader header) (lines : List String) (hrest : AtMargin rest) :
    clauses (header :: block lines ++ rest) = ⟨header, block lines⟩ :: clauses rest := by
  obtain ⟨hmargin, hcode⟩ : isInner header = false ∧ isNote header = false := by
    simpa [isHeader] using hheader
  have htake : (block lines ++ rest.filter (!isNote ·)).takeWhile isInner = block lines := by
    rw [takeWhile_append_of_pos isInner_of_mem_block]
    cases hlater : rest.filter (!isNote ·) with
    | nil => simp
    | cons line others =>
      have hline : isInner line = false := hrest line (by rw [hlater]; rfl)
      rw [takeWhile_cons_of_neg (by simp [hline]), append_nil]
  unfold clauses
  rw [filter_append, filter_cons_of_pos (by simp [hcode]), filter_note_block,
    cons_append, cut, if_neg (by simp [hmargin]), htake, cut_append isInner_of_mem_block]

theorem clauses_note (h : isNote line) (rest : List String) :
    clauses (line :: rest) = clauses rest := by
  unfold clauses
  rw [filter_cons_of_neg (by simp [h])]

/-! ### What a chain runs -/

/-- The place of a header in a chain. -/
inductive ChainWord where
  | opens
  | continues
  | closes
  deriving DecidableEq

def chainWord? (header : String) : Option ChainWord :=
  if header = "else:" then some .closes
  else if "if ".toList.isPrefixOf header.toList then some .opens
  else if "elif ".toList.isPrefixOf header.toList then some .continues
  else none

/-- The blocks that run, where conditions are numbered in the order of their lines. Whether an
earlier clause of the chain has run already is kept in `waiting`. -/
def runs (holds : Nat → Bool) : (index : Nat) → (waiting : Bool) → List Clause → List (List String)
  | _, _, [] => []
  | index, waiting, clause :: rest =>
    match chainWord? clause.header with
    | some .opens =>
      if holds index then clause.block :: runs holds (index + 1) false rest
      else runs holds (index + 1) true rest
    | some .continues =>
      if waiting && holds index then clause.block :: runs holds (index + 1) false rest
      else runs holds (index + 1) waiting rest
    | some .closes =>
      if waiting then clause.block :: runs holds index false rest else runs holds index false rest
    | none => runs holds index false rest

/-- The first item whose condition holds, or else the last one. -/
def pick {α : Type} (holds : Nat → Bool) : (index : Nat) → List α → Option α → Option α
  | _, [], last => last
  | index, item :: rest, last => if holds index then some item else pick holds (index + 1) rest last

/-- A chain of tests with their blocks, and a block for what is left. The word before the first test
is given. -/
def chain (word : String) : List (String × List String) → Option (List String) → List Clause
  | [], last => (last.map (Clause.mk "else:")).toList
  | (test, inner) :: rest, last => ⟨word ++ " " ++ test ++ ":", inner⟩ :: chain "elif" rest last

theorem chainWord?_if (test : String) : chainWord? ("if" ++ " " ++ test ++ ":") = some .opens := by
  unfold chainWord?
  rw [if_neg, if_pos (by simp)]
  intro h
  simpa using congrArg (·.toList.head?) h

theorem chainWord?_elif (test : String) :
    chainWord? ("elif" ++ " " ++ test ++ ":") = some .continues := by
  unfold chainWord?
  rw [if_neg, if_neg (by simp), if_pos (by simp)]
  intro h
  simpa using congrArg (·.toList.drop 2) h

variable {holds : Nat → Bool}

theorem runs_chain_done (index : Nat) (tests : List (String × List String))
    (last : Option (List String)) : runs holds index false (chain "elif" tests last) = [] := by
  induction tests generalizing index with
  | nil => cases last <;> rfl
  | cons first rest ih =>
    rw [chain, runs, chainWord?_elif]
    exact ih (index + 1)

theorem runs_chain_waiting (index : Nat) (tests : List (String × List String))
    (last : Option (List String)) :
    runs holds index true (chain "elif" tests last) =
      (pick holds index (tests.map Prod.snd) last).toList := by
  induction tests generalizing index with
  | nil => cases last <;> rfl
  | cons first rest ih =>
    rw [chain, runs, chainWord?_elif, map_cons, pick]
    cases holds index with
    | true => exact congrArg (first.2 :: ·) (runs_chain_done (index + 1) rest last)
    | false => exact ih (index + 1)

/-- A chain runs the block of the first test that holds, or else the last block, or nothing. -/
theorem runs_chain (index : Nat) (h : tests ≠ []) (last : Option (List String)) (waiting : Bool) :
    runs holds index waiting (chain "if" tests last) =
      (pick holds index (tests.map Prod.snd) last).toList := by
  cases tests with
  | nil => exact absurd rfl h
  | cons first rest =>
    rw [chain, runs, chainWord?_if, map_cons, pick]
    cases holds index with
    | true => exact congrArg (first.2 :: ·) (runs_chain_done (index + 1) rest last)
    | false => exact runs_chain_waiting (index + 1) rest last

theorem pick_map (f : α → β) (index : Nat) (items : List α) (last : Option α) :
    pick holds index (items.map f) (last.map f) = (pick holds index items last).map f := by
  induction items generalizing index with
  | nil => rfl
  | cons item rest ih =>
    rw [map_cons, pick, pick, ih]
    split <;> rfl

theorem closes_mem_chain (word : String) (hword : word = "if" ∨ word = "elif")
    (tests : List (String × List String)) (last : Option (List String)) :
    "else:" ∈ (chain word tests last).map Clause.header ↔ last.isSome := by
  induction tests generalizing word with
  | nil => cases last <;> simp [chain]
  | cons first rest ih =>
    have hother : "else:" ≠ word ++ " " ++ first.1 ++ ":" := by
      intro h
      rcases hword with rfl | rfl
      · simpa using congrArg (·.toList.head?) h
      · simpa using congrArg (·.toList.drop 2) h
    rw [chain, map_cons, mem_cons, ih "elif" (.inr rfl)]
    exact or_iff_right hother

/-! ### The lines of a chain -/

/-- The lines that a body is written in. -/
def bodyLines (body : List Stmt) : List String := block (Stmt.listLines body)

theorem isHeader_test (hword : word = "if" ∨ word = "elif") (test : String) :
    isHeader (word ++ " " ++ test ++ ":") := by
  rcases hword with rfl | rfl <;> simp [isHeader, isInner, isNote]

theorem atMargin_otherwiseLines (otherwise : Option (List Stmt)) :
    AtMargin (Stmt.otherwiseLines otherwise) := by
  cases otherwise with
  | none => exact atMargin_nil
  | some body => exact atMargin_cons rfl _

theorem clauses_otherwiseLines (word : String) (otherwise : Option (List Stmt)) :
    clauses (Stmt.otherwiseLines otherwise) = chain word [] (otherwise.map bodyLines) := by
  cases otherwise with
  | none => rfl
  | some body =>
    have h := clauses_cons (show isHeader "else:" from rfl) (Stmt.listLines body) atMargin_nil
    rw [append_nil] at h
    exact h

theorem clauses_branchLines (hword : word = "if" ∨ word = "elif")
    (branches : List (Code × List Stmt)) (otherwise : Option (List Stmt)) :
    clauses (Stmt.branchLines word branches ++ Stmt.otherwiseLines otherwise) =
      chain word (branches.map fun branch => (branch.1.toText, bodyLines branch.2))
        (otherwise.map bodyLines) := by
  induction branches generalizing word with
  | nil => exact clauses_otherwiseLines word otherwise
  | cons first rest ih =>
    have hrest : AtMargin (Stmt.branchLines "elif" rest ++ Stmt.otherwiseLines otherwise) := by
      cases rest with
      | nil => exact atMargin_otherwiseLines otherwise
      | cons second others => exact atMargin_cons (isHeader_test (.inr rfl) _) _
    rw [Stmt.branchLines, append_assoc, clauses_cons (isHeader_test hword _) _ hrest,
      ih (.inr rfl)]
    rfl

/-- The value and the body of an arm. -/
def Choice.case? : Choice → Option (Code × List Stmt)
  | .case value body => some (value, body)
  | .note _ => none

/-- The comments between the arms. -/
def Choice.note? : Choice → Option String
  | .case .. => none
  | .note line => some line

theorem choiceLines_case (subject : Temp) (word : String) (value : Code) (body : List Stmt)
    (arms : List Choice) :
    Stmt.choiceLines subject word (.case value body :: arms) =
      (word ++ " " ++ (subject.toText ++ " == " ++ value.toText) ++ ":") :: bodyLines body ++
        Stmt.choiceLines subject "elif" arms := by
  rw [Stmt.choiceLines]
  simp only [String.append_assoc]
  rfl

variable {subject : Temp} {arms : List Choice}

theorem atMargin_choiceLines (h : ∀ line ∈ arms.filterMap Choice.note?, isNote line)
    (otherwise : Option (List Stmt)) :
    AtMargin (Stmt.choiceLines subject "elif" arms ++ Stmt.otherwiseLines otherwise) := by
  induction arms with
  | nil => exact atMargin_otherwiseLines otherwise
  | cons arm rest ih =>
    cases arm with
    | note line =>
      obtain ⟨hline, hrest⟩ := forall_mem_cons.mp h
      exact (ih hrest).behind_note hline
    | case value body =>
      rw [choiceLines_case]
      exact atMargin_cons (isHeader_test (.inr rfl) _) _

theorem clauses_choiceLines (hword : word = "if" ∨ word = "elif")
    (h : ∀ line ∈ arms.filterMap Choice.note?, isNote line) (otherwise : Option (List Stmt)) :
    clauses (Stmt.choiceLines subject word arms ++ Stmt.otherwiseLines otherwise) =
      chain word ((arms.filterMap Choice.case?).map fun arm =>
          (subject.toText ++ " == " ++ arm.1.toText, bodyLines arm.2))
        (otherwise.map bodyLines) := by
  induction arms generalizing word with
  | nil => exact clauses_otherwiseLines word otherwise
  | cons arm rest ih =>
    cases arm with
    | note line =>
      obtain ⟨hline, hrest⟩ := forall_mem_cons.mp h
      exact (clauses_note hline _).trans (ih hword hrest)
    | case value body =>
      have hrest : ∀ line ∈ rest.filterMap Choice.note?, isNote line := h
      rw [choiceLines_case, append_assoc, bodyLines,
        clauses_cons (isHeader_test hword _) _ (atMargin_choiceLines hrest otherwise),
        ih (.inr rfl) hrest]
      rfl

theorem choiceLines_notes (word : String) (h : arms.filterMap Choice.case? = []) :
    Stmt.choiceLines subject word arms = arms.filterMap Choice.note? := by
  induction arms with
  | nil => rfl
  | cons arm rest ih =>
    cases arm with
    | note line => exact congrArg (line :: ·) (ih h)
    | case value body => exact nomatch h

theorem any_isCase_iff : arms.any Choice.isCase ↔ arms.filterMap Choice.case? ≠ [] := by
  induction arms with
  | nil => simp
  | cons arm rest ih =>
    cases arm with
    | note line => exact ih
    | case value body => simp [Choice.isCase, Choice.case?]

end AgentLang.Target
