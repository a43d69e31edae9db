import AgentLang.Proofs.Target.Parts
import AgentLang.Proofs.Text.Lines
import Mathlib.Logic.Function.Iterate

/-!
# Where statements stand in the text of a module

Every statement has a place: inside a function of the graph or not, and inside a block or not. A
block changes its lines only at their beginnings, so what lies within one line of a statement stands
in the text of the module. Outside of all blocks even the joined lines of a statement do.
-/

namespace AgentLang

open List

namespace Text

variable {α : Type} {p : α → Bool} {part text : List α} {first last : α}

theorem infix_dropWhile (hfirst : part.head? = some first) (hstays : p first = false)
    (h : part <:+: text) : part <:+: text.dropWhile p := by
  obtain ⟨before, after, rfl⟩ := h
  obtain ⟨rest, rfl⟩ := head?_eq_some_iff.mp hfirst
  rw [append_assoc, dropWhile_append]
  split
  · rw [cons_append, dropWhile_cons_of_neg (by simp [hstays])]
    exact (prefix_append (first :: rest) after).isInfix
  · rw [← append_assoc]
    exact infix_append _ _ _

/-- A stretch between two items that are kept is kept where both ends are cut. -/
theorem infix_dropWhile_ends (hfirst : part.head? = some first) (hlast : part.getLast? = some last)
    (hkept : p first = false) (hkept' : p last = false) (h : part <:+: text) :
    part <:+: ((text.dropWhile p).reverse.dropWhile p).reverse := by
  have hstart := reverse_infix.mpr (infix_dropWhile hfirst hkept h)
  have hend := infix_dropWhile (head?_reverse.trans hlast) hkept' hstart
  simpa using reverse_infix.mpr hend

end Text

namespace Target

open Text (joinLines)

/-! ### Lines within lines -/

/-- The text lies within one of the lines. -/
def Within (text : List Char) (lines : List String) : Prop :=
  ∃ line ∈ lines, text <:+: line.toList

variable {text : List Char} {lines others inner outer : List String}

theorem Within.mono (h : Within text lines) (hsub : lines ⊆ others) : Within text others := by
  obtain ⟨line, hline, htext⟩ := h
  exact ⟨line, hsub hline, htext⟩

theorem Within.infix_joinLines (h : Within text lines) : text <:+: (joinLines lines).toList := by
  obtain ⟨line, hline, htext⟩ := h
  exact htext.trans (Text.infix_joinLines hline)

theorem mem_dropWhile_isEmpty (h : line ∈ lines) (hline : line.isEmpty = false) :
    line ∈ lines.dropWhile String.isEmpty := by
  induction lines with
  | nil => cases h
  | cons first rest ih =>
    rw [dropWhile_cons]
    split
    next hfirst =>
      rcases mem_cons.mp h with rfl | h
      · simp [hline] at hfirst
      · exact ih h
    next => exact h

theorem mem_trimEmpty (h : line ∈ lines) (hline : line.isEmpty = false) : line ∈ trimEmpty lines :=
  mem_reverse.mpr (mem_dropWhile_isEmpty
    (mem_reverse.mpr (mem_dropWhile_isEmpty h hline)) hline)

theorem prefix_fillBody (lines : List String) : lines <+: fillBody lines := by
  unfold fillBody
  split
  · exact prefix_refl lines
  · exact prefix_append _ _

/-- A block keeps what lies within a line. -/
theorem Within.block (htext : text ≠ []) (h : Within text lines) : Within text (block lines) := by
  obtain ⟨line, hline, hstretch⟩ := h
  have hfull : line.isEmpty = false := by
    rw [Bool.eq_false_iff, ne_eq, String.isEmpty_iff]
    rintro rfl
    exact htext (by simpa using hstretch)
  refine ⟨indentLine line,
    mem_map_of_mem ((prefix_fillBody _).subset (mem_trimEmpty hline hfull)), ?_⟩
  rw [indentLine, if_neg (by simp [hfull]), String.toList_append]
  exact hstretch.trans (suffix_append _ _).isInfix

/-- The first and the last of the lines are not empty. -/
def Framed (lines : List String) : Prop :=
  ∃ first last, lines.head? = some first ∧ lines.getLast? = some last ∧
    first.isEmpty = false ∧ last.isEmpty = false

theorem isEmpty_indentLine (h : line.isEmpty = false) : (indentLine line).isEmpty = false := by
  rw [indentLine, if_neg (by simp [h])]
  rw [Bool.eq_false_iff, ne_eq, String.isEmpty_iff, String.append_eq_empty_iff]
  exact fun hempty => absurd hempty.1 (by decide)

theorem Framed.indent (h : Framed lines) : Framed (indent lines) := by
  obtain ⟨first, last, hfirst, hlast, hfirst', hlast'⟩ := h
  refine ⟨indentLine first, indentLine last, ?_, ?_, isEmpty_indentLine hfirst',
    isEmpty_indentLine hlast'⟩
  · rw [Target.indent, List.head?_map, hfirst]
    rfl
  · rw [Target.indent, List.getLast?_map, hlast]
    rfl

theorem Framed.indents (h : Framed lines) (depth : Nat) : Framed (Target.indent^[depth] lines) := by
  induction depth with
  | zero => exact h
  | succ depth ih =>
    rw [Function.iterate_succ_apply']
    exact ih.indent

theorem Framed.infix_block (hframed : Framed inner) (h : inner <:+: outer) :
    Target.indent inner <:+: block outer := by
  obtain ⟨first, last, hfirst, hlast, hfirst', hlast'⟩ := hframed
  have htrim : inner <:+: trimEmpty outer :=
    Text.infix_dropWhile_ends hfirst hlast hfirst' hlast' h
  exact (htrim.trans (prefix_fillBody _).isInfix).map indentLine

/-- The outer lines keep what lies within the inner ones. They keep framed lines in order, though
deeper, and outside of blocks the inner ones as a whole. -/
structure Embeds (indented : Bool) (inner outer : List String) : Prop where
  within : ∀ text ≠ [], Within text inner → Within text outer
  framed : ∀ lines, Framed lines → lines <:+: inner → ∃ depth, indent^[depth] lines <:+: outer
  joined : indented = false → (joinLines inner).toList <:+: (joinLines outer).toList

namespace Embeds

variable {indented : Bool}

theorem refl (indented : Bool) (lines : List String) : Embeds indented lines lines where
  within _ _ h := h
  framed _ _ h := ⟨0, h⟩
  joined _ := infix_rfl

theorem trans (h : Embeds indented inner middle) (h' : Embeds indented middle outer) :
    Embeds indented inner outer where
  within text htext hinner := h'.within text htext (h.within text htext hinner)
  framed lines hlines hinner := by
    obtain ⟨depth, hmiddle⟩ := h.framed lines hlines hinner
    obtain ⟨more, houter⟩ := h'.framed _ (hlines.indents depth) hmiddle
    rw [← Function.iterate_add_apply] at houter
    exact ⟨more + depth, houter⟩
  joined hplain := (h.joined hplain).trans (h'.joined hplain)

theorem prefixed (h : Embeds indented inner outer) (before : List String) :
    Embeds indented inner (before ++ outer) := by
  refine h.trans ⟨fun _ _ hwithin => hwithin.mono (subset_append_right _ _),
    fun _ _ hinner => ⟨0, hinner.trans (suffix_append _ _).isInfix⟩, fun _ => ?_⟩
  by_cases hbefore : before = []
  · simp [hbefore]
  by_cases houter : outer = []
  · rw [houter]
    exact nil_infix
  · rw [Text.joinLines_append hbefore houter, String.toList_append]
    exact (suffix_append _ _).isInfix

theorem followed (h : Embeds indented inner outer) (after : List String) :
    Embeds indented inner (outer ++ after) := by
  refine h.trans ⟨fun _ _ hwithin => hwithin.mono (subset_append_left _ _),
    fun _ _ hinner => ⟨0, hinner.trans (prefix_append _ _).isInfix⟩, fun _ => ?_⟩
  by_cases houter : outer = []
  · rw [houter]
    exact nil_infix
  by_cases hafter : after = []
  · simp [hafter]
  · rw [Text.joinLines_append houter hafter, String.append_assoc, String.toList_append]
    exact (prefix_append _ _).isInfix

theorem block (h : Embeds indented inner outer) (hindented : indented = true) :
    Embeds indented inner (block outer) where
  within text htext hinner := (h.within text htext hinner).block htext
  framed lines hlines hinner := by
    obtain ⟨depth, houter⟩ := h.framed lines hlines hinner
    refine ⟨depth + 1, ?_⟩
    rw [Function.iterate_succ_apply']
    exact (hlines.indents depth).infix_block houter
  joined hplain := absurd (hindented.symm.trans hplain) (by decide)

end Embeds

/-! ### Places -/

/-- Where a statement stands: in a function of the graph, whose parameter is the state, or not, and
in a block or not. -/
structure Place where
  node : Bool
  indented : Bool
  deriving DecidableEq, Repr

namespace Place

/-- A block at the place. -/
def inside (place : Place) : Place := { place with indented := true }

/-- The top level of a module. -/
def top : Place := ⟨false, false⟩

/-- The body of a function of the graph. -/
def graph : Place := ⟨true, true⟩

end Place

mutual

/-- The statement and those inside it, each with its place. -/
def Stmt.placed (place : Place) : Stmt → List (Place × Stmt)
  | stmt@(.define _ _ _ _ body) => (place, stmt) :: Stmt.listPlaced place.inside body
  | stmt@(.defineNode _ body) => (place, stmt) :: Stmt.listPlaced .graph body
  | stmt@(.ifChain branches otherwise) =>
    (place, stmt) :: Stmt.branchPlaced place.inside branches ++
      Stmt.otherwisePlaced place.inside otherwise
  | stmt@(.loop _ body) => (place, stmt) :: Stmt.listPlaced place.inside body
  | stmt@(.select _ _ arms otherwise) =>
    (place, stmt) :: Stmt.choicePlaced place.inside arms ++
      Stmt.otherwisePlaced (if arms.any Choice.isCase then place.inside else place) otherwise
  | stmt@(.thread _ _ body _) => (place, stmt) :: Stmt.listPlaced place.inside body
  | stmt@(.timed _ body _ _) => (place, stmt) :: Stmt.listPlaced place body
  | stmt => [(place, stmt)]

def Stmt.listPlaced (place : Place) : List Stmt → List (Place × Stmt)
  | [] => []
  | stmt :: stmts => stmt.placed place ++ Stmt.listPlaced place stmts

def Stmt.branchPlaced (place : Place) : List (Code × List Stmt) → List (Place × Stmt)
  | [] => []
  | (_, body) :: branches => Stmt.listPlaced place body ++ Stmt.branchPlaced place branches

def Stmt.otherwisePlaced (place : Place) : Option (List Stmt) → List (Place × Stmt)
  | none => []
  | some body => Stmt.listPlaced place body

def Stmt.choicePlaced (place : Place) : List Choice → List (Place × Stmt)
  | [] => []
  | .note _ :: arms => Stmt.choicePlaced place arms
  | .case _ body :: arms => Stmt.listPlaced place body ++ Stmt.choicePlaced place arms

end

mutual

theorem Stmt.map_snd_placed (place : Place) (stmt : Stmt) :
    (stmt.placed place).map Prod.snd = stmt.parts := by
  cases stmt with
  | define name parameters returns doc body =>
    exact congrArg _ (Stmt.map_snd_listPlaced place.inside body)
  | defineNode name body => exact congrArg _ (Stmt.map_snd_listPlaced .graph body)
  | ifChain branches otherwise =>
    rw [placed, parts, map_append, map_cons, Stmt.map_snd_branchPlaced place.inside,
      Stmt.map_snd_otherwisePlaced place.inside]
  | loop condition body => exact congrArg _ (Stmt.map_snd_listPlaced place.inside body)
  | select subject value arms otherwise =>
    rw [placed, parts, map_append, map_cons, Stmt.map_snd_choicePlaced place.inside,
      Stmt.map_snd_otherwisePlaced _]
  | thread saved kind body binding => exact congrArg _ (Stmt.map_snd_listPlaced place.inside body)
  | timed index body prints binding => exact congrArg _ (Stmt.map_snd_listPlaced place body)
  | _ => rfl
termination_by structural stmt

theorem Stmt.map_snd_listPlaced (place : Place) (stmts : List Stmt) :
    (listPlaced place stmts).map Prod.snd = listParts stmts := by
  cases stmts with
  | nil => rfl
  | cons stmt stmts =>
    rw [listPlaced, listParts, map_append, Stmt.map_snd_placed place stmt,
      Stmt.map_snd_listPlaced place stmts]
termination_by structural stmts

theorem Stmt.map_snd_branchPlaced (place : Place) (branches : List (Code × List Stmt)) :
    (branchPlaced place branches).map Prod.snd = branchParts branches := by
  cases branches with
  | nil => rfl
  | cons branch branches =>
    obtain ⟨condition, body⟩ := branch
    rw [branchPlaced, branchParts, map_append, Stmt.map_snd_listPlaced place body,
      Stmt.map_snd_branchPlaced place branches]
termination_by structural branches

theorem Stmt.map_snd_otherwisePlaced (place : Place) (otherwise : Option (List Stmt)) :
    (otherwisePlaced place otherwise).map Prod.snd = otherwiseParts otherwise := by
  cases otherwise with
  | none => rfl
  | some body => exact Stmt.map_snd_listPlaced place body
termination_by structural otherwise

theorem Stmt.map_snd_choicePlaced (place : Place) (arms : List Choice) :
    (choicePlaced place arms).map Prod.snd = choiceParts arms := by
  cases arms with
  | nil => rfl
  | cons arm arms =>
    cases arm with
    | note line => exact Stmt.map_snd_choicePlaced place arms
    | case value body =>
      rw [choicePlaced, choiceParts, map_append, Stmt.map_snd_listPlaced place body,
        Stmt.map_snd_choicePlaced place arms]
termination_by structural arms

end

/-- The part stands in the lines, in a block where they do. -/
structure Sits (place : Place) (part : Place × Stmt) (lines : List String) : Prop where
  deeper : place.indented = true → part.1.indented = true
  embeds : Embeds part.1.indented part.2.lines lines

namespace Sits

variable {place : Place} {part : Place × Stmt}

theorem self (place : Place) (stmt : Stmt) : Sits place (place, stmt) stmt.lines :=
  ⟨id, .refl _ _⟩

theorem prefixed (h : Sits place part lines) (before : List String) :
    Sits place part (before ++ lines) := ⟨h.deeper, h.embeds.prefixed before⟩

theorem followed (h : Sits place part lines) (after : List String) :
    Sits place part (lines ++ after) := ⟨h.deeper, h.embeds.followed after⟩

theorem inBlock (hdeep : deep.indented = true) (h : Sits deep part lines) (place : Place) :
    Sits place part (block lines) :=
  ⟨fun _ => h.deeper hdeep, h.embeds.block (h.deeper hdeep)⟩

end Sits

namespace Stmt

variable {part : Place × Stmt}

mutual

theorem sits_placed (place : Place) {stmt : Stmt} (h : part ∈ stmt.placed place) :
    Sits place part stmt.lines := by
  cases stmt with
  | define name parameters returns doc body =>
    rcases mem_cons.mp h with rfl | h
    · exact .self place _
    · exact (((sits_listPlaced _ h).prefixed (docLines doc)).inBlock rfl place).prefixed
        [defineHeader name parameters returns]
  | defineNode name body =>
    rcases mem_cons.mp h with rfl | h
    · exact .self place _
    · exact ((sits_listPlaced _ h).inBlock rfl place).prefixed (nodeHeader name)
  | ifChain branches otherwise =>
    rcases mem_cons.mp h with rfl | h
    · exact .self place _
    rcases mem_append.mp h with h | h
    · exact (sits_branchPlaced place "if" h).followed (otherwiseLines otherwise)
    · exact (sits_otherwisePlaced _ h).prefixed (branchLines "if" branches)
  | loop condition body =>
    rcases mem_cons.mp h with rfl | h
    · exact .self place _
    · exact ((sits_listPlaced _ h).inBlock rfl place).prefixed
        ["while " ++ condition.toText ++ ":"]
  | select subject value arms otherwise =>
    rcases mem_cons.mp h with rfl | h
    · exact .self place _
    rcases mem_append.mp h with h | h
    · exact ((sits_choicePlaced place subject "if" h).prefixed
        [subject.toText ++ " = " ++ value.toText]).followed _
    · have hlast : Sits place part
          (if arms.any Choice.isCase then otherwiseLines otherwise else openLines otherwise) := by
        cases hguarded : arms.any Choice.isCase with
        | true =>
          rw [hguarded] at h
          exact sits_otherwisePlaced place h
        | false =>
          rw [hguarded] at h
          exact sits_openPlaced place h
      exact hlast.prefixed
        ((subject.toText ++ " = " ++ value.toText) :: choiceLines subject "if" arms)
  | thread saved kind body binding =>
    rcases mem_cons.mp h with rfl | h
    · exact .self place _
    · exact ((((sits_listPlaced _ h).followed _).inBlock rfl place).prefixed
        [saved.toText ++ " = _ctx.messages", "_ctx.messages = " ++ threadText saved kind,
          "try:"]).followed _
  | timed index body prints binding =>
    rcases mem_cons.mp h with rfl | h
    · exact .self place _
    · exact ((((sits_listPlaced _ h).prefixed _).followed _).followed _).followed _
  | _ =>
    obtain rfl := List.mem_singleton.mp h
    exact .self place _
termination_by structural stmt

theorem sits_listPlaced (place : Place) (h : part ∈ listPlaced place stmts) :
    Sits place part (listLines stmts) := by
  cases stmts with
  | nil => exact absurd h not_mem_nil
  | cons stmt rest =>
    rcases mem_append.mp h with h | h
    · exact (sits_placed _ h).followed (listLines rest)
    · exact (sits_listPlaced _ h).prefixed stmt.lines
termination_by structural stmts

theorem sits_branchPlaced (place : Place) (word : String)
    (h : part ∈ branchPlaced place.inside branches) :
    Sits place part (branchLines word branches) := by
  cases branches with
  | nil => exact absurd h not_mem_nil
  | cons branch rest =>
    obtain ⟨condition, body⟩ := branch
    rcases mem_append.mp h with h | h
    · exact (((sits_listPlaced _ h).inBlock rfl place).prefixed
        [word ++ " " ++ condition.toText ++ ":"]).followed (branchLines "elif" rest)
    · exact (sits_branchPlaced place "elif" h).prefixed
        ((word ++ " " ++ condition.toText ++ ":") :: block (listLines body))
termination_by structural branches

theorem sits_otherwisePlaced (place : Place) (h : part ∈ otherwisePlaced place.inside otherwise) :
    Sits place part (otherwiseLines otherwise) := by
  cases otherwise with
  | none => exact absurd h not_mem_nil
  | some body => exact ((sits_listPlaced _ h).inBlock rfl place).prefixed ["else:"]
termination_by structural otherwise

theorem sits_openPlaced (place : Place) (h : part ∈ otherwisePlaced place otherwise) :
    Sits place part (openLines otherwise) := by
  cases otherwise with
  | none => exact absurd h not_mem_nil
  | some body => exact sits_listPlaced _ h
termination_by structural otherwise

theorem sits_choicePlaced (place : Place) (subject : Temp) (word : String)
    (h : part ∈ choicePlaced place.inside arms) :
    Sits place part (choiceLines subject word arms) := by
  cases arms with
  | nil => exact absurd h not_mem_nil
  | cons arm rest =>
    cases arm with
    | note line =>
      have hrest : Sits place part (choiceLines subject word rest) :=
        sits_choicePlaced place subject word h
      exact hrest.prefixed [line]
    | case value body =>
      rcases mem_append.mp h with h | h
      · exact (((sits_listPlaced _ h).inBlock rfl place).prefixed
          [word ++ " " ++ subject.toText ++ " == " ++ value.toText ++ ":"]).followed
            (choiceLines subject "elif" rest)
      · exact (sits_choicePlaced place subject "elif" h).prefixed
          ((word ++ " " ++ subject.toText ++ " == " ++ value.toText ++ ":") ::
            block (listLines body))
termination_by structural arms

end

end Stmt

/-! ### Sections and modules -/

/-- The text lies within one line of the statement. Outside of all blocks it may go over several. -/
def StandsAt (text : List Char) (part : Place × Stmt) : Prop :=
  Within text part.2.lines ∨ (part.1.indented = false ∧ text <:+: (joinLines part.2.lines).toList)

theorem Sits.infix_joinLines (h : Sits place part lines) (htext : text ≠ [])
    (hstands : StandsAt text part) : text <:+: (joinLines lines).toList := by
  rcases hstands with hwithin | ⟨hplain, hjoined⟩
  · exact (h.embeds.within text htext hwithin).infix_joinLines
  · exact hjoined.trans (h.embeds.joined hplain)

/-- The statements of a section, each with its place. -/
def Section.placed : Section → List (Place × Stmt)
  | .statements body => Stmt.listPlaced .top body
  | .functionNode .. => []
  | .entryPoint _ => []
  | .step _ _ body => Stmt.listPlaced .graph body

theorem Section.map_snd_placed (part : Section) : part.placed.map Prod.snd = part.parts := by
  cases part with
  | statements body => exact Stmt.map_snd_listPlaced .top body
  | functionNode | entryPoint => rfl
  | step temp assigned body => exact Stmt.map_snd_listPlaced .graph body

theorem Section.infix_toText {holder : Section} {part : Place × Stmt} (h : part ∈ holder.placed)
    (htext : text ≠ []) (hstands : StandsAt text part) : text <:+: holder.toText.toList := by
  cases holder with
  | statements body => exact (Stmt.sits_listPlaced _ h).infix_joinLines htext hstands
  | functionNode | entryPoint => cases h
  | step temp assigned body =>
    have hbody := (Stmt.sits_listPlaced _ h).prefixed (globalLine assigned)
    exact ((hbody.inBlock rfl .graph).prefixed (nodeHeader temp.toText)).infix_joinLines htext
      hstands

namespace Module

variable {module : Module} {first last : Char}

def placed (module : Module) : List (Place × Stmt) := module.sections.flatMap Section.placed

theorem map_snd_placed (module : Module) : module.placed.map Prod.snd = module.parts := by
  rw [placed, parts, map_flatMap]
  exact congrArg (module.sections.flatMap ·) (funext Section.map_snd_placed)

theorem toText_mem_texts (h : part ∈ module.sections) : part.toText ∈ module.texts := by
  have hbody : part.toText ∈ module.sections.map Section.toText := mem_map_of_mem h
  unfold texts
  cases module.graph with
  | none => exact mem_append_right _ hbody
  | some setup =>
    exact mem_append_right _ (mem_append_left _ (mem_cons_of_mem _ hbody))

theorem lineEnd_ne (h : Text.isBlank c = false) : (c == '\n') = false := by
  rw [beq_eq_false_iff_ne]
  rintro rfl
  exact absurd h (by decide)

/-- What stands in a statement between two characters that are not blank stands in the text of the
module. -/
theorem infix_toText {part : Place × Stmt} (hpart : part ∈ module.placed)
    (hstands : StandsAt text part) (hfirst : text.head? = some first)
    (hlast : text.getLast? = some last) (hblank : Text.isBlank first = false)
    (hblank' : Text.isBlank last = false) : text <:+: module.toText.toList := by
  obtain ⟨holder, hholder, hpart⟩ := mem_flatMap.mp hpart
  have hne : text ≠ [] := by
    rintro rfl
    cases hfirst
  have hstretch := Section.infix_toText hpart hne hstands
  have hstripped : text <:+: (stripLineEnds holder.toText).toList := by
    rw [stripLineEnds, String.toList_ofList]
    exact Text.infix_dropWhile_ends hfirst hlast (lineEnd_ne hblank) (lineEnd_ne hblank') hstretch
  have hkept : Text.isAllBlank holder.toText = false := by
    rw [Text.isAllBlank, all_eq_false]
    exact ⟨first, hstretch.subset (mem_of_mem_head? hfirst), by simp [hblank]⟩
  have hmem : stripLineEnds holder.toText ∈
      (module.texts.filter (!Text.isAllBlank ·)).map stripLineEnds :=
    mem_map_of_mem (mem_filter.mpr ⟨toText_mem_texts hholder, by simp [hkept]⟩)
  rw [toText, String.toList_append]
  exact (hstripped.trans (Text.infix_intercalate _ hmem)).trans (prefix_append _ _).isInfix

end Module

end Target
end AgentLang
