import AgentLang.Proofs.Target.Placement
import Mathlib.Data.List.TakeWhile

/-!
# Suites of emitted code

The lines of a statement are plain ones and suites: a header with the block that belongs to it. A
block holds code and begins and ends with lines that are not empty, so no suite is empty, and each
stays together inside the blocks of others.
-/

namespace AgentLang.Target

open List
open Text (joinLines)

/-! ### Blocks -/

section

variable (lines : List String)

/-- The middle is what is left of the lines without the empty ones at the two ends. -/
structure Trims (lines middle : List String) : Prop where
  ends : ∃ before after, lines = before ++ middle ++ after ∧ ∀ line ∈ before ++ after, line = ""
  first : middle.head? ≠ some ""
  last : middle.getLast? ≠ some ""

theorem head?_dropWhile_isEmpty : (lines.dropWhile String.isEmpty).head? ≠ some "" := by
  intro h
  have hfirst := List.head?_dropWhile_not String.isEmpty lines
  rw [h] at hfirst
  exact absurd hfirst (by decide)

theorem trims_trimEmpty : Trims lines (trimEmpty lines) := by
  have hstart := takeWhile_append_dropWhile (p := String.isEmpty) (l := lines)
  generalize hrest : lines.dropWhile String.isEmpty = rest at hstart
  have hend := congrArg List.reverse
    (takeWhile_append_dropWhile (p := String.isEmpty) (l := rest.reverse))
  rw [reverse_append, reverse_reverse] at hend
  have htrim : trimEmpty lines = (rest.reverse.dropWhile String.isEmpty).reverse := by
    rw [trimEmpty, hrest]
  rw [htrim]
  refine ⟨⟨lines.takeWhile String.isEmpty, (rest.reverse.takeWhile String.isEmpty).reverse, ?_, ?_⟩,
    ?_, ?_⟩
  · rw [append_assoc, hend, hstart]
  · intro line hline
    rw [mem_append, mem_reverse] at hline
    exact String.isEmpty_iff.mp (hline.elim mem_takeWhile_imp mem_takeWhile_imp)
  · intro h
    obtain ⟨others, hothers⟩ := head?_eq_some_iff.mp h
    rw [hothers, cons_append] at hend
    apply head?_dropWhile_isEmpty lines
    rw [hrest, ← hend]
    rfl
  · rw [List.getLast?_reverse]
    exact head?_dropWhile_isEmpty rest.reverse

theorem Trims.any_isCodeLine {lines middle : List String} (h : Trims lines middle) :
    middle.any isCodeLine = lines.any isCodeLine := by
  obtain ⟨before, after, rfl, hempty⟩ := h.ends
  have hnone : (before ++ after).any isCodeLine = false := by
    rw [any_eq_false]
    intro line hline
    rw [hempty line hline]
    decide
  rw [any_append, Bool.or_eq_false_iff] at hnone
  rw [any_append, any_append, hnone.1, hnone.2, Bool.false_or, Bool.or_false]

theorem isCodeLine_indentLine (line : String) : isCodeLine (indentLine line) = isCodeLine line := by
  unfold indentLine
  split
  next hempty => rw [String.isEmpty_iff.mp hempty]
  next =>
    have hstrip : Text.stripStart ("    " ++ line).toList = Text.stripStart line.toList := by
      rw [String.toList_append]
      rfl
    rw [isCodeLine, hstrip, isCodeLine]

/-- A block is what its lines are without the empty ones at the two ends, and is filled up exactly if
there is no code. -/
theorem block_eq : block lines =
    indent (if lines.any isCodeLine then trimEmpty lines else trimEmpty lines ++ ["pass"]) := by
  rw [block, fillBody, (trims_trimEmpty lines).any_isCodeLine]

theorem any_isCodeLine_block : (block lines).any isCodeLine = true := by
  have hlines : isCodeLine ∘ indentLine = isCodeLine := funext isCodeLine_indentLine
  rw [block_eq, indent, any_map, hlines]
  split
  next hcode => rw [(trims_trimEmpty lines).any_isCodeLine, hcode]
  next =>
    rw [any_append]
    exact Bool.or_true _

theorem framed_of_ends {lines : List String} (hne : lines ≠ []) (hfirst : lines.head? ≠ some "")
    (hlast : lines.getLast? ≠ some "") : Framed lines := by
  refine ⟨_, _, List.head?_eq_some_head hne, List.getLast?_eq_some_getLast hne, ?_, ?_⟩
  · rw [List.head?_eq_some_head hne] at hfirst
    rw [Bool.eq_false_iff, ne_eq, String.isEmpty_iff]
    exact fun h => hfirst (congrArg some h)
  · rw [List.getLast?_eq_some_getLast hne] at hlast
    rw [Bool.eq_false_iff, ne_eq, String.isEmpty_iff]
    exact fun h => hlast (congrArg some h)

theorem framed_block : Framed (block lines) := by
  rw [block_eq]
  apply Framed.indent
  have htrims := trims_trimEmpty lines
  split
  next hcode =>
    refine framed_of_ends ?_ htrims.first htrims.last
    intro hnil
    rw [← htrims.any_isCodeLine, hnil] at hcode
    exact absurd hcode (by decide)
  next =>
    refine framed_of_ends (append_ne_nil_of_right_ne_nil _ (by decide)) ?_ ?_
    · rw [List.head?_append]
      intro h
      cases hhead : (trimEmpty lines).head? with
      | none =>
        rw [hhead] at h
        exact absurd h (by decide)
      | some first =>
        rw [hhead, Option.some_or] at h
        exact htrims.first (hhead.trans h)
    · rw [List.getLast?_concat]
      decide

theorem block_of_framed {lines : List String} (h : Framed lines) (hcode : lines.any isCodeLine) :
    block lines = indent lines := by
  obtain ⟨first, last, hfirst, hlast, hfirst', hlast'⟩ := h
  have hkept : lines <:+: trimEmpty lines :=
    Text.infix_dropWhile_ends hfirst hlast hfirst' hlast' infix_rfl
  have htrim : trimEmpty lines <:+: lines := by
    obtain ⟨before, after, heq, -⟩ := (trims_trimEmpty lines).ends
    exact ⟨before, after, heq.symm⟩
  rw [block_eq, if_pos hcode, htrim.sublist.eq_of_length_le hkept.length_le]

end

/-! ### Chunks -/

/-- Plain lines, or a header with the lines of its body. -/
inductive Chunk where
  | plain (lines : List String)
  | suite (header : String) (body : List String)

namespace Chunk

def lines : Chunk → List String
  | .plain lines => lines
  | .suite header body => header :: block body

/-- Headers end with a colon. -/
def Closed : Chunk → Prop
  | .plain _ => True
  | .suite header _ => ∃ start, header = start ++ ":"

theorem Closed.framed {header : String} {body : List String} (h : (suite header body).Closed) :
    Framed (header :: block body) := by
  obtain ⟨start, rfl⟩ := h
  obtain ⟨-, last, -, hlast, -, hlast'⟩ := framed_block body
  refine ⟨start ++ ":", last, rfl, ?_, ?_, hlast'⟩
  · rw [List.getLast?_cons, hlast]
    rfl
  · simp

theorem infix_flatMap_lines {chunk : Chunk} {chunks : List Chunk} (h : chunk ∈ chunks) :
    chunk.lines <:+: chunks.flatMap lines := by
  obtain ⟨before, after, rfl⟩ := append_of_mem h
  rw [flatMap_append, flatMap_cons, ← append_assoc]
  exact infix_append _ _ _

end Chunk

namespace Stmt

/-- Conditions with their bodies. The word before the first condition is given. -/
def branchChunks (word : String) : List (Code × List Stmt) → List Chunk
  | [] => []
  | (condition, body) :: branches =>
    .suite (word ++ " " ++ condition.toText ++ ":") (listLines body) :: branchChunks "elif" branches

def otherwiseChunks : Option (List Stmt) → List Chunk
  | none => []
  | some body => [.suite "else:" (listLines body)]

/-- Arms of a selection. The word before the first test is given. -/
def choiceChunks (subject : Temp) (word : String) : List Choice → List Chunk
  | [] => []
  | .note line :: arms => .plain [line] :: choiceChunks subject word arms
  | .case value body :: arms =>
    .suite (word ++ " " ++ subject.toText ++ " == " ++ value.toText ++ ":") (listLines body) ::
      choiceChunks subject "elif" arms

/-- What a statement is written as. The statements inside it have chunks of their own. -/
def chunks : Stmt → List Chunk
  | .define name parameters returns doc body =>
    [.suite (defineHeader name parameters returns) (docLines doc ++ listLines body)]
  | .defineNode name body =>
    [.plain ["@graph.node(" ++ Text.quoteAscii name ++ ")"],
      .suite ("def " ++ name ++ "(state):") (listLines body)]
  | .ifChain branches otherwise => branchChunks "if" branches ++ otherwiseChunks otherwise
  | .loop condition body => [.suite ("while " ++ condition.toText ++ ":") (listLines body)]
  | .select subject value arms otherwise =>
    .plain [subject.toText ++ " = " ++ value.toText] :: choiceChunks subject "if" arms ++
      (if arms.any Choice.isCase then otherwiseChunks otherwise
        else [.plain (openLines otherwise)])
  | .thread saved kind body binding =>
    let bound := (bindingName? binding).toList.map (· ++ " = _ctx.messages.new_messages()")
    [.plain [saved.toText ++ " = _ctx.messages", "_ctx.messages = " ++ threadText saved kind],
      .suite "try:" (listLines body ++ bound),
      .plain ["finally:", "    _ctx.messages = " ++ saved.toText]]
  | stmt => [.plain stmt.lines]

theorem branchLines_eq_chunks (word : String) (branches : List (Code × List Stmt)) :
    branchLines word branches = (branchChunks word branches).flatMap Chunk.lines := by
  induction branches generalizing word with
  | nil => rfl
  | cons branch rest ih =>
    rw [branchLines, branchChunks, ih]
    rfl

theorem otherwiseLines_eq_chunks (otherwise : Option (List Stmt)) :
    otherwiseLines otherwise = (otherwiseChunks otherwise).flatMap Chunk.lines := by
  cases otherwise with
  | none => rfl
  | some body => exact (append_nil _).symm

theorem choiceLines_eq_chunks (subject : Temp) (word : String) (arms : List Choice) :
    choiceLines subject word arms = (choiceChunks subject word arms).flatMap Chunk.lines := by
  induction arms generalizing word with
  | nil => rfl
  | cons arm rest ih =>
    cases arm with
    | note | case =>
      rw [choiceLines, choiceChunks, ih]
      rfl

theorem lines_eq_chunks (stmt : Stmt) : stmt.lines = stmt.chunks.flatMap Chunk.lines := by
  cases stmt with
  | ifChain branches otherwise =>
    rw [lines, chunks, flatMap_append, branchLines_eq_chunks, otherwiseLines_eq_chunks]
  | select subject value arms otherwise =>
    rw [lines, chunks, flatMap_append, flatMap_cons, choiceLines_eq_chunks,
      otherwiseLines_eq_chunks]
    cases arms.any Choice.isCase with
    | true => rfl
    | false =>
      rw [if_neg (by decide), if_neg (by decide), flatMap_singleton]
      rfl
  | define name parameters returns doc body => exact (append_nil _).symm
  | defineNode name body => exact congrArg (nodeHeader name ++ ·) (append_nil _).symm
  | loop condition body => exact (append_nil _).symm
  | thread saved kind body binding => rfl
  | _ => exact (append_nil _).symm

theorem closed_branchChunks (word : String) (branches : List (Code × List Stmt)) :
    ∀ chunk ∈ branchChunks word branches, chunk.Closed := by
  induction branches generalizing word with
  | nil => exact forall_mem_nil _
  | cons branch rest ih => exact forall_mem_cons.mpr ⟨⟨_, rfl⟩, ih "elif"⟩

theorem closed_otherwiseChunks (otherwise : Option (List Stmt)) :
    ∀ chunk ∈ otherwiseChunks otherwise, chunk.Closed := by
  cases otherwise with
  | none => exact forall_mem_nil _
  | some body => exact forall_mem_singleton.mpr ⟨"else", rfl⟩

theorem closed_choiceChunks (subject : Temp) (word : String) (arms : List Choice) :
    ∀ chunk ∈ choiceChunks subject word arms, chunk.Closed := by
  induction arms generalizing word with
  | nil => exact forall_mem_nil _
  | cons arm rest ih =>
    cases arm with
    | note line => exact forall_mem_cons.mpr ⟨trivial, ih word⟩
    | case value body => exact forall_mem_cons.mpr ⟨⟨_, rfl⟩, ih "elif"⟩

theorem closed_nodeChunk (name : String) (body : List String) :
    (Chunk.suite ("def " ++ name ++ "(state):") body).Closed :=
  ⟨"def " ++ name ++ "(state)", by simp [String.append_assoc]⟩

theorem closed_chunks (stmt : Stmt) : ∀ chunk ∈ stmt.chunks, chunk.Closed := by
  cases stmt with
  | define name parameters returns doc body => exact forall_mem_singleton.mpr ⟨_, rfl⟩
  | defineNode name body =>
    refine forall_mem_cons.mpr ⟨trivial, forall_mem_singleton.mpr ?_⟩
    exact closed_nodeChunk name _
  | ifChain branches otherwise =>
    rw [chunks, forall_mem_append]
    exact ⟨closed_branchChunks "if" branches, closed_otherwiseChunks otherwise⟩
  | loop condition body => exact forall_mem_singleton.mpr ⟨_, rfl⟩
  | select subject value arms otherwise =>
    rw [chunks, forall_mem_append]
    constructor
    · exact forall_mem_cons.mpr ⟨trivial, closed_choiceChunks subject "if" arms⟩
    · split
      · exact closed_otherwiseChunks otherwise
      · exact forall_mem_singleton.mpr trivial
  | thread saved kind body binding =>
    refine forall_mem_cons.mpr ⟨trivial, forall_mem_cons.mpr ⟨⟨"try", rfl⟩, ?_⟩⟩
    exact forall_mem_singleton.mpr trivial
  | _ => exact forall_mem_singleton.mpr trivial

end Stmt

/-! ### Sections -/

namespace Section

/-- What a section is written as. Its statements have chunks of their own. -/
def chunks : Section → List Chunk
  | .statements body => [.plain (Stmt.listLines body)]
  | .functionNode name arity holder =>
    [.plain ["@graph.node(" ++ Text.quoteAscii name ++ ")"],
      .suite ("def _" ++ name ++ "_node(state):") [
        holder.toText ++ " = " ++ name ++ "(*_node_args(state, " ++ Nat.repr arity ++ "))",
        "return " ++ stateWith holder.toText]]
  | .entryPoint node => [.plain [(Section.entryPoint node).toText]]
  | .step temp assigned body =>
    [.plain ["@graph.node(" ++ Text.quoteAscii temp.toText ++ ")"],
      .suite ("def " ++ temp.toText ++ "(state):") (globalLine assigned ++ Stmt.listLines body)]

def lines (holder : Section) : List String := holder.chunks.flatMap Chunk.lines

/-- The chunks of a section and of the statements of all depths in it. -/
def allChunks (holder : Section) : List Chunk :=
  holder.chunks ++ holder.parts.flatMap Stmt.chunks

theorem toText_eq (holder : Section) : holder.toText = joinLines holder.lines := by
  cases holder with
  | statements body =>
    rw [lines, chunks, flatMap_singleton]
    rfl
  | functionNode name arity temp =>
    have hlast : isCodeLine ("return " ++ stateWith temp.toText) = true := by
      rw [isCodeLine, String.toList_append]
      rfl
    have hreturn (text : String) : "    return " ++ text = "    " ++ ("return " ++ text) := by
      rw [← String.append_assoc]
      rfl
    rw [lines, chunks, flatMap_cons, flatMap_singleton, Chunk.lines, Chunk.lines,
      block_of_framed ⟨_, _, rfl, rfl, by simp, by simp⟩ (by simp [hlast]), toText, hreturn]
    simp [indent, indentLine, String.append_assoc]
  | entryPoint node =>
    rw [lines, chunks, flatMap_singleton]
    exact String.intercalate_singleton.symm
  | step temp assigned body =>
    rw [lines, chunks, flatMap_cons, flatMap_singleton]
    rfl

theorem closed_chunks (holder : Section) : ∀ chunk ∈ holder.chunks, chunk.Closed := by
  cases holder with
  | functionNode name arity temp =>
    refine forall_mem_cons.mpr ⟨trivial, forall_mem_singleton.mpr ?_⟩
    exact ⟨"def _" ++ name ++ "_node(state)", by simp [String.append_assoc]⟩
  | step temp assigned body =>
    refine forall_mem_cons.mpr ⟨trivial, forall_mem_singleton.mpr ?_⟩
    exact Stmt.closed_nodeChunk temp.toText _
  | _ => exact forall_mem_singleton.mpr trivial

theorem closed_allChunks (holder : Section) : ∀ chunk ∈ holder.allChunks, chunk.Closed := by
  intro chunk h
  rcases mem_append.mp h with h | h
  · exact holder.closed_chunks chunk h
  · obtain ⟨stmt, -, h⟩ := mem_flatMap.mp h
    exact stmt.closed_chunks chunk h

theorem sits_lines {holder : Section} {part : Place × Stmt} (h : part ∈ holder.placed) :
    ∃ place, Sits place part holder.lines := by
  cases holder with
  | statements body => exact ⟨_, (Stmt.sits_listPlaced _ h).followed []⟩
  | functionNode | entryPoint => cases h
  | step temp assigned body =>
    have hbody := (Stmt.sits_listPlaced _ h).prefixed (globalLine assigned)
    exact ⟨_, ((hbody.inBlock rfl .graph).prefixed (nodeHeader temp.toText)).followed []⟩

/-- A suite stands in the lines of its section, at some depth. -/
theorem infix_lines {holder : Section} {header : String} {body : List String}
    (h : .suite header body ∈ holder.allChunks) :
    ∃ depth, indent^[depth] (header :: block body) <:+: holder.lines := by
  rcases mem_append.mp h with h | h
  · exact ⟨0, Chunk.infix_flatMap_lines h⟩
  · obtain ⟨stmt, hstmt, h⟩ := mem_flatMap.mp h
    rw [← map_snd_placed] at hstmt
    obtain ⟨part, hpart, rfl⟩ := mem_map.mp hstmt
    obtain ⟨place, hsits⟩ := sits_lines hpart
    apply hsits.embeds.framed _ (Stmt.closed_chunks _ _ h).framed
    rw [Stmt.lines_eq_chunks]
    exact Chunk.infix_flatMap_lines h

end Section

/-- A block is what its lines are without the empty ones at the two ends, indented, with `pass`
behind them exactly if none of the lines is code. So it holds code and begins and ends with lines
that are not empty. All lines of a statement or a section are plain ones or suites, whose headers end
with a colon and have a block directly behind them, and every suite of a section stands in its text,
at some depth. -/
theorem suites_have_blocks :
    (∀ lines, Trims lines (trimEmpty lines) ∧
      block lines =
        (if lines.any isCodeLine then trimEmpty lines else trimEmpty lines ++ ["pass"]).map
          (fun line => if line = "" then "" else "    " ++ line) ∧
      (block lines).any isCodeLine ∧ Framed (block lines)) ∧
    (∀ stmt : Stmt, stmt.lines = stmt.chunks.flatMap Chunk.lines) ∧
    ∀ holder : Section, holder.toText = joinLines holder.lines ∧
      ∀ header body, .suite header body ∈ holder.allChunks →
        (∃ start, header = start ++ ":") ∧
          ∃ depth, indent^[depth] (header :: block body) <:+: holder.lines := by
  refine ⟨fun lines => ⟨trims_trimEmpty lines, ?_, any_isCodeLine_block lines, framed_block lines⟩,
    Stmt.lines_eq_chunks, fun holder => ⟨holder.toText_eq, fun header body h => ⟨?_, ?_⟩⟩⟩
  · rw [block_eq, indent]
    apply map_congr_left
    intro line _
    simp only [indentLine, String.isEmpty_iff]
  · exact holder.closed_allChunks _ h
  · exact Section.infix_lines h

theorem suites_have_blocks_note :
    ∃ depth, indent^[depth] ["while ready:", "    # later", "    pass"] <:+:
      (Section.statements [.loop (.name "ready") [.note "# later"]]).lines := by
  have hblock : block ["# later"] = ["    # later", "    pass"] := by decide
  have hsuite : .suite "while ready:" ["# later"] ∈
      (Section.statements [.loop (.name "ready") [.note "# later"]]).allChunks :=
    mem_cons_of_mem _ mem_cons_self
  rw [← hblock]
  exact ((suites_have_blocks.2.2 _).2 _ _ hsuite).2

end AgentLang.Target
