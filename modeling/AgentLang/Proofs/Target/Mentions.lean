import AgentLang.Proofs.Target.Literal
import AgentLang.Proofs.Target.Placement
import Mathlib

/-!
# Literals and names in emitted code

Emitted code takes literals and names over from the program. Each of them is mentioned at a place,
inside of a prompt function or outside of all of them. The text of a literal stands in the text of
the module as it is, unless it is cut into lines: the lines of a prompt function are cut before they
are put into a block.
-/

namespace AgentLang

open List

theorem Template.infix_fill (arguments : Arguments) (h : piece ∈ template) :
    (fillPiece arguments piece).toList <:+: (fill arguments template).toList := by
  induction template with
  | nil => cases h
  | cons first rest ih =>
    rw [fill, String.toList_append]
    rcases mem_cons.mp h with rfl | h
    · exact (prefix_append _ _).isInfix
    · exact (ih h).trans (suffix_append _ _).isInfix

namespace Target

/-- What emitted code takes over from the program. -/
inductive Item where
  | literal (segments : List Segment) (multiline : Bool)
  | name (ident : String)
  deriving DecidableEq, Repr

structure Mention where
  place : Place
  /-- Whether the item stands in the body of a prompt function. -/
  inPrompt : Bool
  item : Item
  deriving DecidableEq, Repr

/-- The text of a literal. -/
def literalText (segments : List Segment) (multiline : Bool) : List Char :=
  (stringLiteral segments multiline).toList

theorem head?_literalText (segments : List Segment) (multiline : Bool) :
    ∃ first, (literalText segments multiline).head? = some first ∧
      Text.isBlank first = false := by
  rw [literalText, stringLiteral_toList]
  obtain ⟨more, hmark⟩ := mark_eq multiline
  cases segments.any isInterpolation with
  | false => exact ⟨'"', by simp [hmark], by decide⟩
  | true => exact ⟨'f', by simp, by decide⟩

theorem getLast?_literalText (segments : List Segment) (multiline : Bool) :
    ∃ last, (literalText segments multiline).getLast? = some last ∧ Text.isBlank last = false := by
  have hlast : (mark multiline).getLast? = some '"' := by cases multiline <;> rfl
  refine ⟨'"', ?_, by decide⟩
  rw [literalText, stringLiteral_toList, List.getLast?_append, hlast]
  rfl

theorem literalText_ne_nil (segments : List Segment) (multiline : Bool) :
    literalText segments multiline ≠ [] := by
  obtain ⟨first, hfirst, -⟩ := head?_literalText segments multiline
  intro hnil
  rw [hnil] at hfirst
  cases hfirst

section

variable {text : List Char} {first second third : String}

theorem infix_first (h : text <:+: first.toList) : text <:+: (first ++ second).toList := by
  rw [String.toList_append]
  exact h.trans (prefix_append _ _).isInfix

theorem infix_last (h : text <:+: second.toList) : text <:+: (first ++ second).toList := by
  rw [String.toList_append]
  exact h.trans (suffix_append _ _).isInfix

theorem infix_middle (h : text <:+: second.toList) : text <:+: (first ++ second ++ third).toList :=
  infix_first (infix_last h)

end

/-! ### Expressions -/

/-- A literal mentions the names that are interpolated in it. -/
def literalItems (segments : List Segment) (multiline : Bool) : List Item :=
  .literal segments multiline :: (Segment.names segments).map .name

namespace Code

mutual

/-- The literals and names of an expression. Fields and methods are not names of their own. -/
def items : Code → List Item
  | .string segments multiline => literalItems segments multiline
  | .name ident => [.name ident]
  | .prompt _ parameters => parameters.map .name
  | .access base links => base.items ++ linksItems links
  | .list codes => listItems codes
  | .dict entries => entriesItems entries
  | .call function arguments => .name function :: listItems arguments
  | .invoke _ arguments => listItems arguments
  | .binary _ left right => left.items ++ right.items
  | .parameter ident _ => [.name ident]
  | _ => []

def listItems : List Code → List Item
  | [] => []
  | code :: codes => code.items ++ listItems codes

def entriesItems : List (String × Code) → List Item
  | [] => []
  | (_, value) :: entries => value.items ++ entriesItems entries

def linksItems : List Link → List Item
  | [] => []
  | .property _ :: links => linksItems links
  | .index index :: links => index.items ++ linksItems links
  | .method _ arguments :: links => listItems arguments ++ linksItems links

end

def optionItems : Option Code → List Item
  | none => []
  | some value => value.items

def configItems : Option (List (String × Code)) → List Item
  | none => []
  | some entries => entriesItems entries

variable {segments : List Segment} {multiline : Bool}

theorem literal_notMem_names (names : List String) :
    Item.literal segments multiline ∉ names.map Item.name := by
  simp

theorem infix_commaSeparated {texts : List String} (h : Within text texts) :
    text <:+: (commaSeparated texts).toList := by
  obtain ⟨line, hline, htext⟩ := h
  exact htext.trans (Text.infix_intercalate ", " hline)

mutual

theorem infix_toText {code : Code} (h : .literal segments multiline ∈ code.items) :
    literalText segments multiline <:+: code.toText.toList := by
  cases code with
  | string own flag =>
    rcases mem_cons.mp h with h | h
    · cases h
      exact infix_rfl
    · exact absurd h (literal_notMem_names _)
  | name ident => cases List.mem_singleton.mp h
  | prompt index parameters => exact absurd h (literal_notMem_names _)
  | access base links =>
    rcases mem_append.mp h with h | h
    · exact infix_first (infix_toText h)
    · exact infix_last (infix_linksText h)
  | list codes => exact infix_middle (infix_commaSeparated (within_texts h))
  | dict entries => exact infix_middle (infix_commaSeparated (within_entryTexts h))
  | call function arguments =>
    rcases mem_cons.mp h with h | h
    · cases h
    · exact infix_middle (infix_commaSeparated (within_texts h))
  | invoke function arguments => exact infix_middle (infix_commaSeparated (within_texts h))
  | binary op left right =>
    rcases mem_append.mp h with h | h
    · exact infix_first (infix_first (infix_first (infix_first (infix_toText h))))
    · exact infix_last (infix_toText h)
  | parameter ident type => cases List.mem_singleton.mp h
  | number | boolean => cases h
termination_by structural code

theorem within_texts (h : .literal segments multiline ∈ listItems codes) :
    Within (literalText segments multiline) (texts codes) := by
  cases codes with
  | nil => cases h
  | cons code rest =>
    rcases mem_append.mp h with h | h
    · exact ⟨code.toText, mem_cons_self, infix_toText h⟩
    · exact (within_texts h).mono (subset_cons_self _ _)
termination_by structural codes

theorem within_entryTexts (h : .literal segments multiline ∈ entriesItems entries) :
    Within (literalText segments multiline) (entryTexts entries) := by
  cases entries with
  | nil => cases h
  | cons entry rest =>
    obtain ⟨key, value⟩ := entry
    rcases mem_append.mp h with h | h
    · exact ⟨Text.quoteAscii key ++ ": " ++ value.toText, mem_cons_self,
        infix_last (infix_toText h)⟩
    · exact (within_entryTexts h).mono (subset_cons_self _ _)
termination_by structural entries

theorem infix_linksText (h : .literal segments multiline ∈ linksItems links) :
    literalText segments multiline <:+: (linksText links).toList := by
  cases links with
  | nil => cases h
  | cons link rest =>
    cases link with
    | property field => exact infix_last (infix_linksText h)
    | index index =>
      rcases mem_append.mp h with h | h
      · exact infix_first (infix_middle (infix_toText h))
      · exact infix_last (infix_linksText h)
    | method function arguments =>
      rcases mem_append.mp h with h | h
      · exact infix_first (infix_middle (infix_commaSeparated (within_texts h)))
      · exact infix_last (infix_linksText h)
termination_by structural links

end

end Code

/-! ### Prompt functions -/

namespace PromptFunction

/-- The literals and names inside of a prompt function. The names that its text refers to are its
parameters. -/
def items (f : PromptFunction) : List Item := .literal f.text false :: Code.configItems f.config

variable {f : PromptFunction} {segments : List Segment} {multiline : Bool}

theorem infix_text (f : PromptFunction) :
    literalText f.text false <:+: (template.fill f.arguments).toList := by
  have hshown : Template.fillPiece f.arguments (.marker "prompt") =
    stringLiteral f.text false := rfl
  have hmarker : .marker "prompt" ∈ template := by simp [template]
  have hstretch := Template.infix_fill f.arguments hmarker
  rwa [hshown] at hstretch

theorem infix_config (hconfig : f.config = some entries) :
    (Code.dict entries).toText.toList <:+: (template.fill f.arguments).toList := by
  have hlookup : f.arguments.lookup "config" = some (.string (Code.dict entries).toText) := by
    simp [arguments, hconfig, List.lookup]
  have hfull : Json.truth (.string (Code.dict entries).toText) = true := by
    have htext : (Code.dict entries).toText =
      "\x7b" ++ commaSeparated (Code.entryTexts entries) ++ "\x7d" := rfl
    simp [htext, Json.truth]
  have hholds : Template.holds f.arguments ⟨"config", false⟩ = true := by
    simp [Template.holds, hlookup, hfull]
  have hshown : Template.fillPiece f.arguments
      (.select [(⟨"config", false⟩, [.text "        config=", .marker "config", .text ",\n"])] []) =
        "        config=" ++ ((Code.dict entries).toText ++ ",\n") := by
    simp [Template.fillPiece, Template.fillParts, Template.fill, hholds, hlookup, Json.display]
  have hsection : .select [(⟨"config", false⟩,
      [.text "        config=", .marker "config", .text ",\n"])] [] ∈ template := by
    simp [template]
  have hstretch := Template.infix_fill f.arguments hsection
  rw [hshown] at hstretch
  exact (infix_last (infix_first infix_rfl)).trans hstretch

theorem infix_fill (h : .literal segments multiline ∈ f.items) :
    literalText segments multiline <:+: (template.fill f.arguments).toList := by
  rcases mem_cons.mp h with h | h
  · cases h
    exact f.infix_text
  · cases hconfig : f.config with
    | none =>
      rw [hconfig] at h
      cases h
    | some entries =>
      rw [hconfig] at h
      have hdict : .literal segments multiline ∈ (Code.dict entries).items := h
      exact (Code.infix_toText hdict).trans (infix_config hconfig)

end PromptFunction

/-! ### Statements -/

def Choice.items : Choice → List Item
  | .case value _ => value.items
  | .note _ => []

namespace Stmt

/-- The literals and names of a statement, apart from the statements inside it. -/
def items : Stmt → List Item
  | .prompt function => function.items
  | .expr value => value.items
  | .assign name _ value => .name name :: value.items
  | .hold _ value => value.items
  | .setModel value => value.items
  | .setMessages value => value.items
  | .importNames _ names => names.map .name
  | .importModule _ shortName => [.name shortName]
  | .discard value => Code.optionItems value
  | .ret value => Code.optionItems value
  | .retData value => Code.optionItems value
  | .call function arguments => .name function :: Code.listItems arguments
  | .retCall function arguments => .name function :: Code.listItems arguments
  | .goTo _ _ arguments => Code.listItems arguments
  | .runGraph _ arguments => Code.listItems arguments
  | .unpack names => names.map .name
  | .define name .. => [.name name]
  | .defineNode name _ => [.name name]
  | .ifChain branches _ => branches.flatMap (·.1.items)
  | .loop condition _ => condition.items
  | .select _ value arms _ => value.items ++ arms.flatMap Choice.items
  | .thread _ _ _ binding => binding.toList.map .name
  | .timed _ _ _ binding => binding.toList.map .name
  | _ => []

/-- The names that a definition binds in its body. -/
def parameterNames : Stmt → List String
  | .define _ parameters _ _ _ => parameters.map Prod.fst
  | _ => []

/-- What a statement mentions by itself. -/
def mentions (place : Place) (stmt : Stmt) : List Mention :=
  stmt.items.map (Mention.mk place stmt.prompt?.isSome) ++
    stmt.parameterNames.map fun name => ⟨place.inside, false, .name name⟩

variable {stmt : Stmt} {segments : List Segment} {multiline : Bool} {text : List Char}

theorem within_middle {lines : List String} {after : String} (h : text <:+: line.toList) :
    Within text ((before ++ line ++ after) :: lines) :=
  ⟨_, mem_cons_self, infix_middle h⟩

theorem within_last {lines : List String} (h : text <:+: line.toList) :
    Within text ((before ++ line) :: lines) :=
  ⟨_, mem_cons_self, infix_last h⟩

theorem within_branchLines (word : String) {branches : List (Code × List Stmt)}
    (h : .literal segments multiline ∈ branches.flatMap (·.1.items)) :
    Within (literalText segments multiline) (branchLines word branches) := by
  induction branches generalizing word with
  | nil => cases h
  | cons branch rest ih =>
    obtain ⟨condition, body⟩ := branch
    rcases mem_append.mp h with h | h
    · exact within_middle (Code.infix_toText h)
    · exact (ih "elif" h).mono (subset_append_right _ _)

theorem within_choiceLines (subject : Temp) (word : String) {arms : List Choice}
    (h : .literal segments multiline ∈ arms.flatMap Choice.items) :
    Within (literalText segments multiline) (choiceLines subject word arms) := by
  induction arms generalizing word with
  | nil => cases h
  | cons arm rest ih =>
    cases arm with
    | note line => exact (ih word h).mono (subset_cons_self _ _)
    | case value body =>
      rcases mem_append.mp h with h | h
      · exact within_middle (Code.infix_toText h)
      · exact (ih "elif" h).mono (subset_append_right _ _)

theorem literal_infix_valueText? {value : Option Code}
    (h : .literal segments multiline ∈ Code.optionItems value) :
    ∃ shown, valueText? value = some shown ∧ literalText segments multiline <:+: shown.toList := by
  cases value with
  | none => cases h
  | some code =>
    have hstretch := Code.infix_toText h
    refine ⟨code.toText, ?_, hstretch⟩
    have hfull : code.toText.isEmpty = false := by
      rw [Bool.eq_false_iff, ne_eq, String.isEmpty_iff]
      intro hempty
      rw [hempty] at hstretch
      exact literalText_ne_nil segments multiline (by simpa using hstretch)
    simp [valueText?, hfull]

theorem infix_arguments {codes : List Code}
    (h : .literal segments multiline ∈ Code.listItems codes) :
    literalText segments multiline <:+: (commaSeparated (Code.texts codes)).toList :=
  Code.infix_commaSeparated (Code.within_texts h)

theorem infix_bracketed {codes : List Code}
    (h : .literal segments multiline ∈ Code.listItems codes) :
    literalText segments multiline <:+: (bracketed codes).toList :=
  infix_middle (infix_arguments h)

theorem infix_stateWith (h : text <:+: data.toList) : text <:+: (stateWith data).toList :=
  infix_middle h

theorem infix_newState (h : text <:+: data.toList) : text <:+: (newState data).toList :=
  infix_middle h

/-- Outside of prompt functions, a literal lies within one line of its statement. -/
theorem within_lines (hprompt : stmt.prompt? = none)
    (h : .literal segments multiline ∈ stmt.items) :
    Within (literalText segments multiline) stmt.lines := by
  cases stmt with
  | prompt function => cases hprompt
  | expr value => exact ⟨_, mem_cons_self, Code.infix_toText h⟩
  | assign name typeCode value =>
    rcases mem_cons.mp h with h | h
    · cases h
    · exact within_last (Code.infix_toText h)
  | hold temp value => exact within_last (Code.infix_toText h)
  | setModel | setMessages => exact within_middle (Code.infix_toText h)
  | discard value =>
    obtain ⟨shown, hshown, hstretch⟩ := literal_infix_valueText? h
    rw [lines, hshown]
    exact ⟨shown, mem_cons_self, hstretch⟩
  | ret value =>
    obtain ⟨shown, hshown, hstretch⟩ := literal_infix_valueText? h
    rw [lines, hshown]
    exact within_last (infix_last hstretch)
  | retData value =>
    obtain ⟨shown, hshown, hstretch⟩ := literal_infix_valueText? h
    rw [lines, hshown]
    exact within_last (infix_stateWith hstretch)
  | call function arguments =>
    rcases mem_cons.mp h with h | h
    · cases h
    · exact within_middle (infix_arguments h)
  | retCall function arguments =>
    rcases mem_cons.mp h with h | h
    · cases h
    · exact within_last (infix_middle (infix_arguments h))
  | goTo handOn node arguments =>
    refine within_middle ?_
    cases handOn with
    | true => exact infix_stateWith (infix_bracketed h)
    | false => exact infix_newState (infix_bracketed h)
  | runGraph node arguments => exact within_middle (infix_newState (infix_bracketed h))
  | ifChain branches otherwise =>
    exact (within_branchLines "if" h).mono (subset_append_left _ _)
  | loop condition body => exact within_middle (Code.infix_toText h)
  | select subject value arms otherwise =>
    rcases mem_append.mp h with h | h
    · exact within_last (Code.infix_toText h)
    · exact (within_choiceLines subject "if" h).mono
        fun line hline => mem_cons_of_mem _ (mem_append_left _ hline)
  | importNames | unpack | thread | timed => exact absurd h (Code.literal_notMem_names _)
  | importModule | define | defineNode => cases List.mem_singleton.mp h
  | _ => cases h

/-- The literals of a prompt function stand in its joined lines, and within one of them unless they
hold a line end. -/
theorem standsAt_prompt (place : Place) (h : .literal segments multiline ∈ f.items)
    (hlines : place.indented = true → '\n' ∉ literalText segments multiline) :
    StandsAt (literalText segments multiline) (place, .prompt f) := by
  have hstretch := PromptFunction.infix_fill h
  cases hindented : place.indented with
  | true => exact .inl (Text.exists_infix_line hstretch (hlines hindented))
  | false =>
    refine .inr ⟨hindented, ?_⟩
    have hjoined : Text.joinLines (Stmt.prompt f).lines =
        PromptFunction.template.fill f.arguments := Text.joinLines_lines _
    rwa [hjoined]

theorem standsAt_of_mention
    (h : ⟨place', inPrompt, .literal segments multiline⟩ ∈ stmt.mentions place)
    (hlines : inPrompt = true → place'.indented = true → '\n' ∉ literalText segments multiline) :
    StandsAt (literalText segments multiline) (place, stmt) := by
  rcases mem_append.mp h with h | h
  · obtain ⟨item, hitem, heq⟩ := mem_map.mp h
    cases heq
    cases hprompt : stmt.prompt? with
    | none => exact .inl (within_lines hprompt hitem)
    | some f =>
      rw [hprompt] at hlines
      cases stmt with
      | prompt function => exact standsAt_prompt place hitem (hlines rfl)
      | _ => cases hprompt
  · obtain ⟨name, -, heq⟩ := mem_map.mp h
    cases heq

end Stmt

/-! ### Counting mentions -/

/-- The mentions of items at one place. -/
def Mention.of (place : Place) (inPrompt : Bool) (items : List Item) : Multiset Mention :=
  (items.map (Mention.mk place inPrompt) : List Mention)

namespace Mention

variable (place : Place) (inPrompt : Bool)

@[simp] theorem of_nil : of place inPrompt [] = 0 := rfl

@[simp] theorem of_append (items others : List Item) :
    of place inPrompt (items ++ others) = of place inPrompt items + of place inPrompt others := by
  simp [of]

end Mention

namespace Stmt

open Mention (of)

/-- What placed statements mention. -/
def placedMentions (parts : List (Place × Stmt)) : Multiset Mention :=
  (parts.flatMap fun (place, stmt) => stmt.mentions place : List Mention)

@[simp] theorem placedMentions_nil : placedMentions [] = 0 := rfl

@[simp] theorem placedMentions_append (parts others : List (Place × Stmt)) :
    placedMentions (parts ++ others) = placedMentions parts + placedMentions others := by
  simp [placedMentions]

/-- All that statements at one place mention. -/
def listMentions (place : Place) (stmts : List Stmt) : Multiset Mention :=
  placedMentions (listPlaced place stmts)

/-- The conditions stand at the place, the bodies inside. -/
def branchMentions (place : Place) (branches : List (Code × List Stmt)) : Multiset Mention :=
  of place false (branches.flatMap (·.1.items)) +
    placedMentions (branchPlaced place.inside branches)

def otherwiseMentions (place : Place) (otherwise : Option (List Stmt)) : Multiset Mention :=
  placedMentions (otherwisePlaced place otherwise)

/-- The values stand at the place, the bodies inside. -/
def choiceMentions (place : Place) (arms : List Choice) : Multiset Mention :=
  of place false (arms.flatMap Choice.items) + placedMentions (choicePlaced place.inside arms)

variable (place : Place)

@[simp] theorem listMentions_nil : listMentions place [] = 0 := rfl

theorem listPlaced_append (stmts others : List Stmt) :
    listPlaced place (stmts ++ others) = listPlaced place stmts ++ listPlaced place others := by
  induction stmts with
  | nil => rfl
  | cons stmt rest ih => rw [cons_append, listPlaced, ih, listPlaced, append_assoc]

@[simp] theorem listMentions_append (stmts others : List Stmt) :
    listMentions place (stmts ++ others) =
      listMentions place stmts + listMentions place others := by
  rw [listMentions, listPlaced_append, placedMentions_append]
  rfl

theorem listMentions_cons (stmt : Stmt) (stmts : List Stmt) :
    listMentions place (stmt :: stmts) = listMentions place [stmt] + listMentions place stmts :=
  listMentions_append place [stmt] stmts

theorem listMentions_singleton (hplaced : stmt.placed place = (place, stmt) :: inside) :
    listMentions place [stmt] =
      (stmt.mentions place : Multiset Mention) + placedMentions inside := by
  rw [listMentions, listPlaced, listPlaced, append_nil, hplaced]
  simp [placedMentions]

theorem mentions_plain {stmt : Stmt} (hprompt : stmt.prompt? = none)
    (hparameters : stmt.parameterNames = []) :
    (stmt.mentions place : Multiset Mention) = of place false stmt.items := by
  rw [mentions, hprompt, hparameters, map_nil, append_nil]
  rfl

theorem listMentions_leaf {stmt : Stmt} (hplaced : stmt.placed place = [(place, stmt)])
    (hprompt : stmt.prompt? = none) (hparameters : stmt.parameterNames = []) :
    listMentions place [stmt] = of place false stmt.items := by
  rw [listMentions_singleton place hplaced, mentions_plain place hprompt hparameters,
    placedMentions_nil, add_zero]

theorem listMentions_prompt (f : PromptFunction) :
    listMentions place [.prompt f] =
      of place true [.literal f.text false] + of place true (Code.configItems f.config) := by
  rw [listMentions_singleton place rfl, placedMentions_nil, add_zero, ← Mention.of_append]
  exact congrArg Multiset.ofList (append_nil _)

theorem listMentions_define (name : String) (parameters : List (String × Option String))
    (returns doc : Option String) (body : List Stmt) :
    listMentions place [.define name parameters returns doc body] =
      of place false [.name name] + of place.inside false ((parameters.map Prod.fst).map .name) +
        listMentions place.inside body := by
  rw [listMentions_singleton place rfl, mentions, ← Multiset.coe_add]
  simp only [of, parameterNames, map_map]
  rfl

theorem listMentions_defineNode (name : String) (body : List Stmt) :
    listMentions place [.defineNode name body] =
      of place false [.name name] + listMentions .graph body := by
  rw [listMentions_singleton place rfl, mentions_plain place rfl rfl]
  rfl

theorem listMentions_ifChain (branches : List (Code × List Stmt)) (otherwise : Option (List Stmt)) :
    listMentions place [.ifChain branches otherwise] =
      branchMentions place branches + otherwiseMentions place.inside otherwise := by
  have hplaced : (Stmt.ifChain branches otherwise).placed place =
      (place, .ifChain branches otherwise) :: (branchPlaced place.inside branches ++
        otherwisePlaced place.inside otherwise) := rfl
  rw [listMentions_singleton place hplaced, mentions_plain place rfl rfl, placedMentions_append,
    ← add_assoc]
  rfl

theorem listMentions_loop (condition : Code) (body : List Stmt) :
    listMentions place [.loop condition body] =
      of place false condition.items + listMentions place.inside body := by
  rw [listMentions_singleton place rfl, mentions_plain place rfl rfl]
  rfl

theorem listMentions_select (subject : Temp) (value : Code) (arms : List Choice)
    (otherwise : Option (List Stmt)) :
    listMentions place [.select subject value arms otherwise] =
      of place false value.items + choiceMentions place arms +
        otherwiseMentions (if arms.any Choice.isCase then place.inside else place) otherwise := by
  have hplaced : (Stmt.select subject value arms otherwise).placed place =
      (place, .select subject value arms otherwise) :: (choicePlaced place.inside arms ++
        otherwisePlaced (if arms.any Choice.isCase then place.inside else place) otherwise) := rfl
  rw [listMentions_singleton place hplaced, mentions_plain place rfl rfl, placedMentions_append,
    items, Mention.of_append, choiceMentions, otherwiseMentions]
  abel

theorem listMentions_thread (saved : Temp) (kind : ThreadKind) (body : List Stmt)
    (binding : Option String) :
    listMentions place [.thread saved kind body binding] =
      of place false (binding.toList.map .name) + listMentions place.inside body := by
  rw [listMentions_singleton place rfl, mentions_plain place rfl rfl]
  rfl

theorem listMentions_timed (index : Nat) (body : List Stmt) (prints : Bool)
    (binding : Option String) :
    listMentions place [.timed index body prints binding] =
      of place false (binding.toList.map .name) + listMentions place body := by
  rw [listMentions_singleton place rfl, mentions_plain place rfl rfl]
  rfl

theorem listMentions_notes (lines : List String) : listMentions place (lines.map .note) = 0 := by
  induction lines with
  | nil => rfl
  | cons line rest ih =>
    rw [map_cons, listMentions_cons, ih, listMentions_leaf place rfl rfl rfl, add_zero]
    rfl

@[simp] theorem branchMentions_nil : branchMentions place [] = 0 := rfl

theorem branchMentions_cons (condition : Code) (body : List Stmt)
    (branches : List (Code × List Stmt)) :
    branchMentions place ((condition, body) :: branches) = of place false condition.items +
      listMentions place.inside body + branchMentions place branches := by
  rw [branchMentions, branchMentions, branchPlaced, placedMentions_append, flatMap_cons,
    Mention.of_append, listMentions]
  abel

@[simp] theorem otherwiseMentions_some (body : List Stmt) :
    otherwiseMentions place (some body) = listMentions place body := rfl

@[simp] theorem choiceMentions_nil : choiceMentions place [] = 0 := rfl

theorem choiceMentions_case (value : Code) (body : List Stmt) (arms : List Choice) :
    choiceMentions place (.case value body :: arms) = of place false value.items +
      listMentions place.inside body + choiceMentions place arms := by
  rw [choiceMentions, choiceMentions, choicePlaced, placedMentions_append, flatMap_cons,
    Mention.of_append, Choice.items, listMentions]
  abel

end Stmt

/-! ### Sections and modules -/

def Section.mentions : Section → List Mention
  | .functionNode name _ _ => [⟨.graph, false, .name name⟩]
  | part => part.placed.flatMap fun (place, stmt) => stmt.mentions place

theorem Section.mentions_statements (body : List Stmt) :
    ((Section.statements body).mentions : Multiset Mention) = Stmt.listMentions .top body := rfl

theorem Section.mentions_step (temp : Temp) (assigned : Names) (body : List Stmt) :
    ((Section.step temp assigned body).mentions : Multiset Mention) =
      Stmt.listMentions .graph body := rfl

namespace Module

/-- All literals and names of a module, each with its place. -/
def mentions (module : Module) : List Mention := module.sections.flatMap Section.mentions

theorem exists_placed {module : Module} {place : Place} {inPrompt : Bool} {segments : List Segment}
    {multiline : Bool} (h : ⟨place, inPrompt, .literal segments multiline⟩ ∈ module.mentions) :
    ∃ part ∈ module.placed,
      ⟨place, inPrompt, .literal segments multiline⟩ ∈ part.2.mentions part.1 := by
  obtain ⟨holder, hholder, h⟩ := mem_flatMap.mp h
  cases holder with
  | functionNode name arity temp => cases List.mem_singleton.mp h
  | _ =>
    obtain ⟨part, hpart, hmention⟩ := mem_flatMap.mp h
    exact ⟨part, mem_flatMap.mpr ⟨_, hholder, hpart⟩, hmention⟩

theorem mem_mentions_of_placed {module : Module} {part : Place × Stmt} {mention : Mention}
    (h : part ∈ module.placed) (hmention : mention ∈ part.2.mentions part.1) :
    mention ∈ module.mentions := by
  obtain ⟨holder, hholder, hpart⟩ := mem_flatMap.mp h
  refine mem_flatMap.mpr ⟨holder, hholder, ?_⟩
  cases holder with
  | functionNode => cases hpart
  | _ => exact mem_flatMap.mpr ⟨part, hpart, hmention⟩

/-- A literal stands in the text of the module as it is, unless it holds a line end and stands in a
prompt function inside of a block. -/
theorem infix_literal {module : Module} {place : Place} {inPrompt : Bool} {segments : List Segment}
    {multiline : Bool} (h : ⟨place, inPrompt, .literal segments multiline⟩ ∈ module.mentions)
    (hlines : inPrompt = true → place.indented = true → '\n' ∉ literalText segments multiline) :
    literalText segments multiline <:+: module.toText.toList := by
  obtain ⟨part, hpart, hmention⟩ := exists_placed h
  obtain ⟨first, hfirst, hblank⟩ := head?_literalText segments multiline
  obtain ⟨last, hlast, hblank'⟩ := getLast?_literalText segments multiline
  exact infix_toText hpart (Stmt.standsAt_of_mention hmention hlines) hfirst hlast hblank hblank'

end Module

end Target
end AgentLang
