import AgentLang.Proofs.Grammar.Spelling
import AgentLang.Proofs.Grammar.WellFormed
import AgentLang.Proofs.Number.Written

/-!
# Types are read back as they are written

A type that was read can be written, and from what is written the same type is read again. In
writing, all marks of arrays stand behind the innermost type, whichever way they were read.
-/

namespace AgentLang

open List

/-- A type whose words can be read back. -/
inductive Ty.Writable : Ty → Prop where
  | named {name : String} (known : name ∈ primitiveNames) : Writable (.named name)
  | array {element : Ty} (inner : Writable element) : Writable (.array element)
  | text {value : String} (within : ∀ c ∈ value.toList, ¬"\"\n".toList.contains c) :
      Writable (.text value)
  | number {value : String} (written : Grammar.Shape.number.Accepts value.toList) :
      Writable (.number value)
  | boolean (value : Bool) : Writable (.boolean value)

/-- The type inside a number of arrays. -/
def Ty.nested (core : Ty) : (count : Nat) → Ty
  | 0 => core
  | count + 1 => .array (core.nested count)

theorem Ty.exists_core (t : Ty) : ∃ core count, t = nested core count ∧ ∀ e, core ≠ .array e := by
  induction t with
  | array element ih =>
    obtain ⟨core, count, rfl, hcore⟩ := ih
    exact ⟨core, count + 1, rfl, hcore⟩
  | _ => exact ⟨_, 0, rfl, nofun⟩

theorem Ty.Writable.of_nested {core : Ty} {count : Nat} (h : (core.nested count).Writable) :
    core.Writable := by
  induction count with
  | zero => exact h
  | succ count ih =>
    cases h with
    | array inner => exact ih inner

/-- The marks of arrays in writing. -/
def Ty.marks (count : Nat) : List Char :=
  (List.replicate count "[]".toList).flatten

theorem Ty.toText_nested (core : Ty) (count : Nat) :
    (core.nested count).toText.toList = core.toText.toList ++ marks count := by
  induction count with
  | zero => exact (append_nil _).symm
  | succ count ih =>
    have hmarks : marks (count + 1) = marks count ++ "[]".toList := by
      rw [marks, replicate_succ', flatten_append, flatten_singleton]
      rfl
    rw [Ty.nested, Ty.toText, String.toList_append, ih, hmarks, append_assoc]

theorem Ty.foldl_nested (core : Ty) (count : Nat) :
    (List.replicate count "[]").foldl (fun element _ => Ty.array element) core =
      core.nested count := by
  induction count with
  | zero => rfl
  | succ count ih =>
    rw [replicate_succ', foldl_append, ih]
    rfl

namespace Grammar

open Parse (Cursor Reach Pattern Engine)
open Parse.Parser (lit)

/-! ### What is read can be written -/

/-- Types are of interest, and nothing else. -/
def Legible : (r : Rule) → r.Out → Prop
  | .type => Ty.Writable
  | _ => fun _ => True

/-- Everything that a parser may yield has a property, if all types in it can be written. -/
abbrev Writes {α : Type} (p : Parser α) (P : α → Prop) : Prop :=
  p.Ensures (fun _ => false) Legible P

theorem writes_stringLiteralType : Writes stringLiteralType Ty.Writable := by
  refine .map (.token (Shape.enclosed "\"") _) ?_
  rintro literal ⟨_, _, ⟨_, inner, rfl, haccepts, rfl⟩, rfl, hliteral⟩
  have hinner : (trimmed 1 1 literal).toList = inner := by
    simp [trimmed, hliteral]
  apply Ty.Writable.text
  rw [hinner]
  intro c hc
  have hplain := Pattern.accepts_of_star haccepts c hc
  exact (Bool.not_eq_true' _).mp hplain ▸ Bool.false_ne_true

theorem writes_baseType : Writes baseType Ty.Writable := by
  have htype : Writes type Ty.Writable := fun _ h => h
  have harray : Writes genericArrayType Ty.Writable :=
    .map (.left (.left (.right htype))) fun _ => .array
  have hnames : Writes (Parse.Parser.choice [.word "number", .word "string", .word "boolean"])
      (· ∈ Ty.primitiveNames) :=
    .choice ⟨.word (by decide), .word (by decide), .word (by decide)⟩
  have hnumber : Writes numberLiteralType Ty.Writable := .map (.token _ _) fun _ => .number
  have hboolean : Writes booleanLiteralType Ty.Writable := .map (.any _) fun _ _ => .boolean _
  exact .choice ⟨harray, .map hnames fun _ => .named, writes_stringLiteralType, hnumber, hboolean⟩

theorem writable_foldl_array (marks : List String) {base : Ty} (h : base.Writable) :
    (marks.foldl (fun element _ => .array element) base).Writable := by
  induction marks generalizing base with
  | nil => exact h
  | cons _ rest ih => exact ih (.array h)

theorem writes_typeBody : Writes typeBody Ty.Writable :=
  .seq (.map writes_baseType fun _ hbase marks _ => writable_foldl_array marks hbase) (.any _)

theorem writable_of_run? {next : Parse.Cursor}
    (h : run? type text pos = some ⟨.success t next, reach⟩) : t.Writable := by
  have hbodies : ∀ r value, (bodyOf r).Yields (fun _ => false) Legible value → Legible r value := by
    intro r value hvalue
    cases r with
    | type => exact writes_typeBody value hvalue
    | _ => trivial
  obtain ⟨⟨reply, memory⟩, hsession, rfl⟩ := Option.map_eq_some_iff.mp h
  have hgives := Parse.Grammar.session_yields (fun r _ => body_not_nullable r) hbodies
    (Nat.le_refl _) (Cursor.on_ofPos text pos) hsession
  exact Parse.Reply.gives_success.mp hgives

/-! ### What is written can be read -/

variable {rest : List Char}

/-- What may follow a type inside of arrays. -/
abbrev Closed (rest : List Char) : Prop := Stops ['[', '>'] rest

theorem takes_digits (h : Number.Digits w) (hrest : rest.head?.any Text.isDecimal = false) :
    Shape.digits.Takes w rest :=
  .run_plus h.1 h.2 hrest

theorem takes_number (h : Shape.number.Accepts w) (hrest : Closed rest) :
    Shape.number.Takes w rest := by
  obtain ⟨sign, whole, fraction, rfl, hsign, hwhole, hfraction⟩ := Number.parts_of_accepts h
  have hfractionTakes : (Pattern.opt (.lit "." ++ Shape.digits)).Takes fraction rest := by
    rcases hfraction with rfl | ⟨digits, rfl, hdigits⟩
    · apply Pattern.Takes.opt_nil
      apply Pattern.match?_eq_none
      · exact hrest.eq_false (f := (Pattern.lit "." ++ Shape.digits).begins) (by decide) (by decide)
      · decide
    · have hdigitsTakes : Shape.digits.Takes digits rest :=
        takes_digits hdigits (hrest.eq_false (f := Option.any _) rfl (by decide))
      exact ((Pattern.Takes.lit ".").append hdigitsTakes).opt
  have hstop : (fraction ++ rest).head?.any Text.isDecimal = false := by
    rcases hfraction with rfl | ⟨digits, rfl, -⟩
    · exact hrest.eq_false (f := Option.any _) rfl (by decide)
    · exact (by decide : Text.isDecimal '.' = false)
  have hsignTakes : (Pattern.opt (.lit "-")).Takes sign (whole ++ (fraction ++ rest)) := by
    rcases hsign with rfl | rfl
    · apply Pattern.Takes.opt_nil
      obtain ⟨d, whole, rfl⟩ := exists_cons_of_ne_nil hwhole.1
      have hd : d ≠ '-' := Number.ne_of_isDecimal (hwhole.2 d mem_cons_self) (by decide)
      exact Pattern.match?_eq_none (by simpa using hd) (by decide)
    · exact (Pattern.Takes.lit "-").opt
  rw [← append_assoc]
  apply Pattern.Takes.append _ hfractionTakes
  exact hsignTakes.append (takes_digits hwhole hstop)

theorem takes_enclosed {value : String} (h : ∀ c ∈ value.toList, ¬"\"\n".toList.contains c) :
    (Shape.enclosed "\"").Takes ("\"" ++ value ++ "\"").toList rest := by
  have hinner : (Pattern.star (Shape.except ("\"" ++ "\n"))).Takes value.toList
      ("\"".toList ++ rest) := by
    apply Pattern.Takes.run
    · intro c hc
      exact (Bool.not_eq_true' _).mpr (Bool.eq_false_iff.mpr (h c hc))
    · rfl
  have hopen := (Pattern.Takes.lit "\"").append hinner
  have hclose := Pattern.Takes.append hopen (.lit "\"")
  rw [String.toList_append, String.toList_append]
  exact hclose

theorem head_of_number (h : Shape.number.Accepts w) :
    ∃ c tail, w = c :: tail ∧ (c = '-' ∨ Text.isDecimal c = true) := by
  obtain ⟨sign, whole, fraction, rfl, hsign, hwhole, -⟩ := Number.parts_of_accepts h
  rcases hsign with rfl | rfl
  · obtain ⟨d, whole, rfl⟩ := exists_cons_of_ne_nil hwhole.1
    exact ⟨d, whole ++ fraction, rfl, .inr (hwhole.2 d mem_cons_self)⟩
  · exact ⟨'-', whole ++ fraction, rfl, .inl rfl⟩

theorem ne_of_number (hc : c = '-' ∨ Text.isDecimal c = true) (hd : d ≠ '-')
    (hd' : Text.isDecimal d = false) : c ≠ d := by
  rcases hc with rfl | hc
  · exact hd.symm
  · exact Number.ne_of_isDecimal hc hd'

theorem reads_named (h : name ∈ Ty.primitiveNames) (hrest : Closed rest) :
    Reads baseType (.named name) name.toList rest := by
  have hword : ∀ word : String, Reads (.word word) word word.toList rest := fun _ =>
    Reads.word (hrest.eq_false (f := Option.any _) rfl (by decide))
  have hnames : Reads (.choice [.word "number", .word "string", .word "boolean"]) name name.toList
      rest := by
    fin_cases h
    · exact (hword "number").choice_head
    · exact .choice_tail (misses_of_begins rfl rfl) (hword "string").choice_head
    · exact .choice_tail (misses_of_begins rfl rfl)
        (.choice_tail (misses_of_begins rfl rfl) (hword "boolean").choice_head)
  apply Reads.choice_tail
  · fin_cases h <;> exact misses_of_begins rfl rfl
  · exact (hnames.map Ty.named).choice_head

theorem reads_text {value : String} (h : ∀ c ∈ value.toList, ¬"\"\n".toList.contains c) :
    Reads baseType (.text value) ("\"" ++ value ++ "\"").toList rest := by
  have htoken : Reads stringLiteralType (.text value) ("\"" ++ value ++ "\"").toList rest := by
    have hvalue : trimmed 1 1 (String.ofList ("\"" ++ value ++ "\"").toList) = value := by
      simp [trimmed]
    have htakes : Pattern.Takes _ _ rest := takes_enclosed h
    have hread := (Reads.token "string literal type" htakes).map
      fun text => Ty.text (trimmed 1 1 text)
    rw [hvalue] at hread
    exact hread
  have hhead : (("\"" ++ value ++ "\"").toList ++ rest).head? = some '"' := by simp
  apply Reads.choice_tail (misses_of_begins (by rw [hhead]; rfl) rfl)
  apply Reads.choice_tail (misses_of_begins (by rw [hhead]; rfl) rfl)
  exact htoken.choice_head

theorem reads_numberType {value : String} (h : Shape.number.Accepts value.toList)
    (hrest : Closed rest) : Reads baseType (.number value) value.toList rest := by
  have htoken : Reads numberLiteralType (.number value) value.toList rest := by
    have hread := (Reads.token "number literal type" (takes_number h hrest)).map Ty.number
    rw [String.ofList_toList] at hread
    exact hread
  obtain ⟨c, tail, hw, hc⟩ := head_of_number h
  have hhead : (value.toList ++ rest).head? = some c := by rw [hw]; rfl
  have hne : ∀ d, d ≠ '-' → Text.isDecimal d = false → c ≠ d := fun _ => ne_of_number hc
  apply Reads.choice_tail (misses_of_begins _ rfl)
  apply Reads.choice_tail (misses_of_begins _ rfl)
  apply Reads.choice_tail (misses_of_begins _ rfl)
  · exact htoken.choice_head
  · rw [hhead]
    simpa [begins, stringLiteralType, Shape.enclosed] using hne '"' (by decide) (by decide)
  · rw [hhead]
    simpa [begins, primitiveType] using ⟨hne 'n' (by decide) (by decide),
      hne 's' (by decide) (by decide), hne 'b' (by decide) (by decide)⟩
  · rw [hhead]
    simpa [begins, genericArrayType] using hne 'a' (by decide) (by decide)

theorem reads_booleanType (value : Bool) (hrest : Closed rest) :
    Reads baseType (.boolean value) (Ty.boolean value).toText.toList rest := by
  have hword : ∀ word : String, Reads (.word word) word word.toList rest := fun _ =>
    Reads.word (hrest.eq_false (f := Option.any _) rfl (by decide))
  cases value with
  | true =>
    have htruth : Reads truth true "true".toList rest := (hword "true").choice_head.map (· == "true")
    iterate 4 apply Reads.choice_tail (misses_of_begins rfl rfl)
    exact (htruth.map Ty.boolean).choice_head
  | false =>
    have htruth : Reads truth false "false".toList rest :=
      (Reads.choice_tail (misses_of_begins rfl rfl) (hword "false").choice_head).map (· == "true")
    iterate 4 apply Reads.choice_tail (misses_of_begins rfl rfl)
    exact (htruth.map Ty.boolean).choice_head

theorem reads_core (h : core.Writable) (hcore : ∀ e, core ≠ .array e) (hrest : Closed rest) :
    Reads baseType core core.toText.toList rest := by
  cases h with
  | named known => exact reads_named known hrest
  | array => exact absurd rfl (hcore _)
  | text within => exact reads_text within
  | number written => exact reads_numberType written hrest
  | boolean value => exact reads_booleanType value hrest

theorem reads_marks (count : Nat) (hrest : Stops ['>'] rest) :
    Reads (.many (lit "[]")) (List.replicate count "[]") (Ty.marks count) rest := by
  induction count with
  | zero => exact .many_nil (misses_of_stops hrest rfl)
  | succ count ih => exact .many_cons (by decide) (.lit "[]") ih

theorem reads_type {t : Ty} (h : t.Writable) (hrest : Stops ['>'] rest) :
    Reads type t t.toText.toList rest := by
  obtain ⟨core, count, rfl, hcore⟩ := t.exists_core
  have hclosed : Closed (Ty.marks count ++ rest) := by
    intro c hc
    cases count with
    | zero => exact mem_cons_of_mem _ (hrest c hc)
    | succ count =>
      cases hc
      exact mem_cons_self
  have hbase := reads_core h.of_nested hcore hclosed
  have hbody := (hbase.map fun base marks =>
    marks.foldl (fun element _ => Ty.array element) base).ap (reads_marks count hrest)
  rw [Ty.foldl_nested, ← Ty.toText_nested] at hbody
  exact Reads.call (r := .type) hbody

theorem head_of_writable {t : Ty} (h : t.Writable) :
    ∃ c tail, t.toText.toList = c :: tail ∧ Shape.space.begins (some c) = false := by
  induction h with
  | named known => fin_cases known <;> exact ⟨_, _, rfl, rfl⟩
  | array inner ih =>
    obtain ⟨c, tail, htext, hc⟩ := ih
    refine ⟨c, tail ++ "[]".toList, ?_, hc⟩
    rw [Ty.toText, String.toList_append, htext, cons_append]
  | @text value within =>
    refine ⟨'"', value.toList ++ ['"'], ?_, rfl⟩
    simp [Ty.toText]
  | number written =>
    obtain ⟨c, tail, htext, hc⟩ := head_of_number written
    have hne : ∀ d ∈ [' ', '\t', '\r', '\n', '/'], c ≠ d := by
      intro d hd
      fin_cases hd <;> exact ne_of_number hc (by decide) (by decide)
    refine ⟨c, tail, htext, ?_⟩
    simp only [forall_mem_cons] at hne
    simp [Shape.space, Shape.among, Shape.lineComment, Shape.blockComment, Pattern.begins, hne]
  | boolean value => cases value <;> exact ⟨_, _, rfl, rfl⟩

theorem reads_generic (h : t.Writable) :
    Reads type (.array t) ("array<" ++ t.toText ++ ">").toList [] := by
  obtain ⟨c, tail, hhead, hc⟩ := head_of_writable h
  have hspace : Reads space "" [] (t.toText.toList ++ (">".toList ++ [])) := by
    apply Reads.nothing rfl
    rw [hhead]
    exact hc
  have hopen : Reads (Parse.Parser.word "array" *> ws *> lit "<" *> space) ""
      ("array".toList ++ "<".toList) (t.toText.toList ++ (">".toList ++ [])) := by
    have hword : Reads (.word "array" *> ws) "" "array".toList
        ("<".toList ++ (t.toText.toList ++ (">".toList ++ []))) :=
      .skip_nil (.word rfl) (.nothing rfl rfl)
    exact (hword.skip (.lit "<")).skip_nil hspace
  have htype : Reads type t t.toText.toList (">".toList ++ []) := reads_type h (by simp [Stops])
  have hgap : Reads space "" [] (">".toList ++ []) := .nothing rfl rfl
  have hinner := (hopen.skip htype).keep_nil hgap
  have hgeneric := (hinner.keep (.lit ">")).map Ty.array
  have hletters : ("array<" ++ t.toText ++ ">").toList =
      "array".toList ++ "<".toList ++ t.toText.toList ++ ">".toList := by
    simp
  have hbase : Reads baseType (.array t) ("array<" ++ t.toText ++ ">").toList [] := by
    rw [hletters]
    exact hgeneric.choice_head
  have hmarks : Reads (.many (lit "[]")) [] [] [] := reads_marks 0 (by simp [Stops])
  have hbody := (hbase.map fun base marks =>
    marks.foldl (fun element _ => Ty.array element) base).ap_nil hmarks
  exact Reads.call (r := .type) hbody

/-- Whatever type is read somewhere in a text: what is written for it is read as the same type and
nothing is left, with `array<` and `>` around it is read as an array of the type, and is not written
for any other type that is read. -/
theorem type_read_back {text : List Char} {pos : Nat} {t : Ty} {next : Cursor} {reach : Reach}
    (h : run? type text pos = some ⟨.success t next, reach⟩) :
    ReadsWhole type t t.toText.toList ∧
    ReadsWhole type (.array t) ("array<" ++ t.toText ++ ">").toList ∧
    ∀ text' pos' t' next' reach', run? type text' pos' = some ⟨.success t' next', reach'⟩ →
      t'.toText = t.toText → t' = t := by
  have hback : ∀ {text pos t next reach}, run? type text pos = some ⟨.success t next, reach⟩ →
      ReadsWhole type t t.toText.toList :=
    fun h => (reads_type (writable_of_run? h) (by simp [Stops])).whole
  refine ⟨hback h, (reads_generic (writable_of_run? h)).whole, ?_⟩
  intro text' pos' t' next' reach' h' htext
  have hsame := hback h'
  rw [htext] at hsame
  exact hsame.unique (hback h)

theorem type_read_back_nested : ∃ next reach,
    run? type "x: array< \"a b\"[] >[] = y".toList 3 =
      some ⟨.success (.array (.array (.array (.text "a b")))) next, reach⟩ ∧
    ReadsWhole type (.array (.array (.array (.text "a b")))) "\"a b\"[][][]".toList ∧
    ReadsWhole type (.array (.array (.array (.array (.text "a b"))))) "array<\"a b\"[][][]>".toList :=
    by
  have h : run? type "x: array< \"a b\"[] >[] = y".toList 3 =
      some ⟨.success (.array (.array (.array (.text "a b")))) _, _⟩ :=
    run?_of_plain (Cursor.on_ofPos _ 3)
      (rfl : (grammar.plain 27 6).run type (Cursor.ofPos _ 3) = _)
  obtain ⟨hback, hgeneric, -⟩ := type_read_back h
  exact ⟨_, _, h, hback, hgeneric⟩

end Grammar
end AgentLang
