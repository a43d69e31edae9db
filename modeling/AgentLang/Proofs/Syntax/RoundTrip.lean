import AgentLang.Proofs.Syntax.Storable

/-!
# Documents are lossless

Every storable value is read back from the document that it is written as. Reading therefore settles
after one round: what it drops, fills in or converts is gone from what it returns.
-/

namespace AgentLang

open List
open Json (Key Checked Reader ofOption ofStrings tagged)
open Json.Checked (map_eq_valid map₂_eq_valid map₃_eq_valid map₅_eq_valid)
open Json.Reader

/-! ### Depths -/

namespace Json

variable {α : Type} {encode : α → Json} {bound : Nat} {fields : Fields}

theorem depth_pos (json : Json) : 0 < json.depth := by
  cases json <;> simp [JsonOf.depth]

theorem depth_lt_of_mem (h : item ∈ items) : item.depth < (Json.array items).depth := by
  rw [JsonOf.depth]
  induction items with
  | nil => cases h
  | cons first rest ih =>
    rw [JsonOf.depthItems]
    rcases mem_cons.mp h with rfl | h
    · exact Nat.lt_succ_of_le (Nat.le_max_left _ _)
    · exact Nat.lt_of_lt_of_le (ih h) (Nat.succ_le_succ (Nat.le_max_right _ _))

theorem depth_lt_of_field (name : String) (hfield : fields.lookup name = some json)
    (h : (Json.object fields).depth ≤ bound) : json.depth < bound := by
  refine Nat.lt_of_lt_of_le ?_ h
  rw [JsonOf.depth]
  clear h
  induction fields with
  | nil => cases hfield
  | cons first rest ih =>
    obtain ⟨key, value⟩ := first
    rw [JsonOf.depthFields]
    rw [lookup_cons] at hfield
    split at hfield
    · cases hfield
      exact Nat.lt_succ_of_le (Nat.le_max_left _ _)
    · exact Nat.lt_of_lt_of_le (ih hfield) (Nat.succ_le_succ (Nat.le_max_right _ _))

theorem depth_lt_of_list (name : String) {values : List α}
    (hfield : fields.lookup name = some (.array (values.map encode)))
    (h : (Json.object fields).depth ≤ bound) : ∀ value ∈ values, (encode value).depth < bound := by
  intro value hvalue
  exact Nat.lt_trans (depth_lt_of_mem (mem_map_of_mem hvalue)) (depth_lt_of_field name hfield h)

theorem depth_lt_of_option (name : String)
    (hfield : fields.lookup name = some (ofOption encode value))
    (h : (Json.object fields).depth ≤ bound) : ∀ v ∈ value, (encode v).depth < bound := by
  rintro v ⟨⟩
  exact depth_lt_of_field name hfield h

theorem reads_ofOption {read : Reader α} {value : Option α} (hnull : ∀ v, encode v ≠ .null)
    (h : ∀ v ∈ value, Reads read (encode v) v) :
    Reads (nullable read) (ofOption encode value) value := by
  cases value with
  | none => exact reads_nullable_null read
  | some v => exact reads_nullable_some (hnull v) (h v rfl)

end Json

open Json (depth_lt_of_field depth_lt_of_list depth_lt_of_option reads_ofOption)

/-! ### Lists as they are written -/

theorem Expr.itemsJson_eq (items : List Expr) : itemsJson items = items.map toJson := by
  induction items with
  | nil => rfl
  | cons item items ih => rw [itemsJson, ih, map_cons]

/-- A field of an object as it is written. -/
def Expr.entryJson (entry : String × Expr) : Json :=
  .object [("key", .string entry.1), ("value", entry.2.toJson)]

theorem Expr.entriesJson_eq (entries : List (String × Expr)) :
    entriesJson entries = entries.map entryJson := by
  induction entries with
  | nil => rfl
  | cons entry entries ih => rw [entriesJson, ih, map_cons, entryJson]

theorem Expr.chainJson_eq (steps : List Step) : chainJson steps = steps.map Step.toJson := by
  induction steps with
  | nil => rfl
  | cons step steps ih => rw [chainJson, ih, map_cons]

theorem Node.listJson_eq (nodes : List Node) : listJson nodes = nodes.map toJson := by
  induction nodes with
  | nil => rfl
  | cons node nodes ih => rw [listJson, ih, map_cons]

theorem Node.armsJson_eq (arms : List Arm) : armsJson arms = arms.map Arm.toJson := by
  induction arms with
  | nil => rfl
  | cons arm arms ih => rw [armsJson, ih, map_cons]

theorem Expr.toJson_ne_null (e : Expr) : e.toJson ≠ .null := by
  cases e with
  | prompt segments config => cases config <;> simp [toJson, tagged]
  | _ => simp [toJson, tagged]

/-! ### Objects of a kind -/

/-- A document is an object of a kind, and its fields are read as a value. -/
def Describes {α : Type} (selector kind : String) (member : Decode.Member α) (json : Json)
    (value : α) : Prop :=
  ∃ fields, json = .object fields ∧ fields.lookup selector = some (.string kind) ∧
    ∀ location, member kind location fields = .valid value

namespace Describes

variable {α : Type} {selector kind : String} {kinds : List String} {member : Decode.Member α}
  {json : Json} {value : α}

theorem union (h : Describes selector kind member json value) (hkind : kind ∈ kinds) :
    Reads (union selector kinds member) json value := by
  obtain ⟨fields, rfl, hselector, hfields⟩ := h
  exact reads_union hkind hselector hfields

theorem only (h : Describes "type" kind member json value) :
    Reads (Decode.only kind member) json value := by
  obtain ⟨fields, rfl, hselector, hfields⟩ := h
  intro location
  exact map₂_eq_valid.mpr ⟨_, _, constant_eq hselector, hfields location, rfl⟩

theorem map {β : Type} {f : α → β} {other : Decode.Member β}
    (h : Describes selector kind member json value)
    (hother : ∀ location fields, other kind location fields = f <$> member kind location fields) :
    Describes selector kind other json (f value) := by
  obtain ⟨fields, rfl, hselector, hfields⟩ := h
  refine ⟨fields, rfl, hselector, fun location => ?_⟩
  rw [hother, hfields]
  rfl

end Describes

/-! ### Every value is of a known kind -/

theorem Ty.tag_mem (type : Ty) : type.tag ∈ Decode.typeKinds := by
  cases type <;> simp [tag, Decode.typeKinds]

theorem Segment.tag_mem (segment : Segment) : segment.tag ∈ Decode.segmentKinds := by
  cases segment <;> simp [tag, Decode.segmentKinds]

theorem Step.tag_mem (step : Step) : step.tag ∈ Decode.stepKinds := by
  cases step <;> simp [tag, Decode.stepKinds]

theorem Expr.tag_mem (e : Expr) : e.tag ∈ Decode.expressionKinds := by
  cases e <;> simp [tag, Decode.expressionKinds, Decode.operandKinds, Decode.argumentKinds,
    Decode.literalKinds]

theorem Node.tag_mem (n : Node) : n.tag ∈ Decode.nodeKinds := by
  cases n with
  | expr value => exact mem_append_left _ value.tag_mem
  | _ => exact mem_append_right _ (by simp [tag, Decode.statementKinds])

theorem Arm.tag_mem (arm : Arm) : arm.tag ∈ Decode.armKinds := by
  cases arm <;> simp [tag, Decode.armKinds]

namespace Decode

/-! ### Types and segments -/

theorem describes_type {type : Ty} (h : type.toJson.depth ≤ fuel) :
    Describes "type" type.tag (typeMember fuel) type.toJson type := by
  induction fuel generalizing type with
  | zero => cases type <;> cases h
  | succ fuel ih =>
    cases type with
    | named name => exact ⟨_, rfl, rfl, fun _ => map_required_eq rfl (reads_text name)⟩
    | text value | number value =>
      exact ⟨_, rfl, rfl, fun _ => map_required_eq rfl (reads_text value)⟩
    | boolean value => exact ⟨_, rfl, rfl, fun _ => map_required_eq rfl (reads_flag value)⟩
    | array element =>
      have helement := ih (Nat.le_of_lt_succ (depth_lt_of_field "element_type" rfl h))
      exact ⟨_, rfl, rfl, fun _ => map_required_eq rfl (helement.union element.tag_mem)⟩

theorem describes_segment (segment : Segment) :
    Describes "type" segment.tag segmentMember segment.toJson segment := by
  cases segment with
  | text value => exact ⟨_, rfl, rfl, fun _ => map_required_eq rfl (reads_text value)⟩
  | interpolation name => exact ⟨_, rfl, rfl, fun _ => map_required_eq rfl (reads_text name)⟩

theorem segments_eq (hfield : fields.lookup "segments" = some (Segment.listJson found)) :
    segments location fields = .valid found :=
  defaulted_eq hfield (reads_listOf fun segment _ =>
    (describes_segment segment).union segment.tag_mem)

/-! ### Expressions -/

section Parts

variable {expression argument : Reader Expr} {location : List Key} {fields : Fields}

theorem entryMember_eq (h : Reads expression entry.2.toJson entry.2) :
    Reads (model (entryMember expression)) (Expr.entryJson entry) entry := by
  intro location
  exact map₂_eq_valid.mpr
    ⟨entry.1, entry.2, required_eq rfl (reads_text entry.1), required_eq rfl h, rfl⟩

theorem entries_eq (hfield : fields.lookup "entries" = some (.array (found.map Expr.entryJson)))
    (h : ∀ entry ∈ found, Reads expression entry.2.toJson entry.2) :
    entries expression location fields = .valid found :=
  defaulted_eq hfield (reads_listOf fun entry hentry => entryMember_eq (h entry hentry))

theorem callMember_eq (hname : fields.lookup "function_name" = some (.string function))
    (hfield : fields.lookup "arguments" = some (.array (arguments.map Expr.toJson)))
    (h : ∀ e ∈ arguments, Reads argument e.toJson e) :
    callMember argument location fields = .valid (function, arguments) :=
  map₂_eq_valid.mpr
    ⟨_, _, required_eq hname (reads_text function), defaulted_eq hfield (reads_listOf h), rfl⟩

end Parts

/-- What a reader with some fuel reads. -/
def ReadsExpr (fuel : Nat) : Prop :=
  ∀ e : Expr, e.WellFormed → e.toJson.depth ≤ fuel →
    Describes "type" e.tag (exprMember fuel) e.toJson e

theorem ReadsExpr.reads (h : ReadsExpr fuel) (hkind : e.tag ∈ kinds) (hwellFormed : e.WellFormed)
    (hdepth : e.toJson.depth ≤ fuel) : Reads (union "type" kinds (exprMember fuel)) e.toJson e :=
  (h e hwellFormed hdepth).union hkind

theorem ReadsExpr.entries {fuel : Nat} (h : ReadsExpr fuel) {found : List (String × Expr)}
    (hwellFormed : ∀ entry ∈ found, entry.2.WellFormed)
    (hdepth : (tagged "adlObject" [("entries", .array (found.map Expr.entryJson))]).depth ≤
      fuel + 1) :
    ∀ entry ∈ found, Reads (union "type" expressionKinds (exprMember fuel)) entry.2.toJson
      entry.2 := by
  intro entry hentry
  have hlist := depth_lt_of_list "entries" rfl hdepth entry hentry
  have hvalue := depth_lt_of_field "value" rfl (Nat.le_of_lt_succ hlist)
  exact h.reads entry.2.tag_mem (hwellFormed entry hentry) (Nat.le_of_lt hvalue)

theorem ReadsExpr.describes_step (h : ReadsExpr fuel) (hwellFormed : step.WellFormed)
    (hdepth : step.toJson.depth ≤ fuel) :
    Describes "kind" step.tag (stepMember (union "type" expressionKinds (exprMember fuel))
      (union "type" argumentKinds (exprMember fuel))) step.toJson step := by
  cases hwellFormed with
  | property name => exact ⟨_, rfl, rfl, fun _ => map_required_eq rfl (reads_text name)⟩
  | @index index place =>
    have hindex := h.reads index.tag_mem place (Nat.le_of_lt (depth_lt_of_field "index" rfl hdepth))
    exact ⟨_, rfl, rfl, fun _ => map_required_eq rfl hindex⟩
  | @method function arguments kinds members =>
    rw [Step.toJson, Expr.itemsJson_eq] at *
    have hcall := Nat.le_of_lt (depth_lt_of_field "call" rfl hdepth)
    have hitems := depth_lt_of_list "arguments" rfl hcall
    have hread : Reads (only "functionCall" fun _ =>
        callMember (union "type" argumentKinds (exprMember fuel))) (tagged "functionCall"
          [("function_name", .string function), ("arguments", .array (arguments.map Expr.toJson))])
        (function, arguments) := by
      refine Describes.only ⟨_, rfl, rfl, fun _ => callMember_eq rfl rfl ?_⟩
      intro e he
      exact h.reads (kinds e he) (members e he) (Nat.le_of_lt (hitems e he))
    exact ⟨_, rfl, rfl, fun _ => map_required_eq rfl hread⟩

theorem readsExpr (fuel : Nat) : ReadsExpr fuel := by
  induction fuel with
  | zero =>
    intro e _ hdepth
    exact absurd (Json.depth_pos e.toJson) (Nat.not_lt.mpr hdepth)
  | succ fuel ih =>
    intro e hwellFormed hdepth
    cases hwellFormed with
    | number text => exact ⟨_, rfl, rfl, fun _ => map_required_eq rfl (reads_text text)⟩
    | boolean value => exact ⟨_, rfl, rfl, fun _ => map_required_eq rfl (reads_flag value)⟩
    | name name => exact ⟨_, rfl, rfl, fun _ => map_required_eq rfl (reads_text name)⟩
    | string | multiline =>
      exact ⟨_, rfl, rfl, fun _ => map_eq_valid.mpr ⟨_, segments_eq rfl, rfl⟩⟩
    | @prompt segments config members =>
      cases config with
      | none =>
        exact ⟨_, rfl, rfl, fun _ => map₂_eq_valid.mpr
          ⟨_, _, segments_eq rfl, defaulted_eq rfl (reads_nullable_null _), rfl⟩⟩
      | some found =>
        rw [Expr.toJson, Expr.entriesJson_eq] at *
        have hobject := depth_lt_of_field "config" rfl hdepth
        have hread := ih.entries (members found rfl) (Nat.le_of_lt hobject)
        have hconfig : Reads (only "adlObject" fun _ => entries (union "type" expressionKinds
            (exprMember fuel))) (tagged "adlObject" [("entries", .array (found.map Expr.entryJson))])
            found :=
          Describes.only ⟨_, rfl, rfl, fun _ => entries_eq rfl hread⟩
        exact ⟨_, rfl, rfl, fun _ => map₂_eq_valid.mpr ⟨_, _, segments_eq rfl,
          defaulted_eq rfl (reads_nullable_some (by simp [tagged]) hconfig), rfl⟩⟩
    | @access base chain kind start nonempty steps =>
      rw [Expr.toJson, Expr.chainJson_eq] at *
      have hbase := ih.reads kind start (Nat.le_of_lt_succ (depth_lt_of_field "base" rfl hdepth))
      have hsteps := depth_lt_of_list "chain" rfl hdepth
      refine ⟨_, rfl, rfl, fun _ => map₂_eq_valid.mpr ⟨_, _, required_eq rfl hbase,
        required_eq rfl (reads_nonemptyOf nonempty fun step hstep => ?_), rfl⟩⟩
      have hstep := ih.describes_step (steps step hstep) (Nat.le_of_lt_succ (hsteps step hstep))
      exact hstep.union step.tag_mem
    | @array items members =>
      rw [Expr.toJson, Expr.itemsJson_eq] at *
      have hitems := depth_lt_of_list "items" rfl hdepth
      refine ⟨_, rfl, rfl, fun _ => map_eq_valid.mpr
        ⟨_, defaulted_eq rfl (reads_listOf fun e he => ?_), rfl⟩⟩
      exact ih.reads e.tag_mem (members e he) (Nat.le_of_lt_succ (hitems e he))
    | @object found members =>
      rw [Expr.toJson, Expr.entriesJson_eq] at *
      have hread := ih.entries members hdepth
      exact ⟨_, rfl, rfl, fun _ => map_eq_valid.mpr ⟨_, entries_eq rfl hread, rfl⟩⟩
    | @call function arguments kinds members =>
      rw [Expr.toJson, Expr.itemsJson_eq] at *
      have hitems := depth_lt_of_list "arguments" rfl hdepth
      have harguments : ∀ e ∈ arguments, Reads _ e.toJson e := fun e he =>
        ih.reads (kinds e he) (members e he) (Nat.le_of_lt_succ (hitems e he))
      exact ⟨_, rfl, rfl, fun _ => map_eq_valid.mpr
        ⟨_, callMember_eq rfl rfl harguments, rfl⟩⟩
    | @binary op left right leftKind leftPart rightKind rightPart =>
      have hop : BinaryOp.ofText? op.toText = some op := by cases op <;> rfl
      have hleft := Nat.le_of_lt_succ (depth_lt_of_field "left" rfl hdepth)
      have hright := Nat.le_of_lt_succ (depth_lt_of_field "right" rfl hdepth)
      exact ⟨_, rfl, rfl, fun _ => map₃_eq_valid.mpr ⟨_, _, _,
        required_eq rfl (reads_wordOf hop), required_eq rfl (ih.reads leftKind leftPart hleft),
        required_eq rfl (ih.reads rightKind rightPart hright), rfl⟩⟩

theorem reads_expr (hkind : e.tag ∈ kinds) (hwellFormed : e.WellFormed)
    (hdepth : e.toJson.depth < fuel) : Reads (expr kinds fuel) e.toJson e :=
  (readsExpr fuel).reads hkind hwellFormed (Nat.le_of_lt hdepth)

/-! ### Statements and definitions -/

section Fields

variable {location : List Key} {fields : Fields} {fuel : Nat}

theorem hintField_eq (name : String) (hfield : fields.lookup name = some (ofOption Ty.toJson hint))
    (hdepth : (Json.object fields).depth ≤ fuel) :
    hintField name fuel location fields = .valid hint := by
  refine defaulted_eq hfield (reads_ofOption (fun type => by cases type <;> simp [Ty.toJson, tagged]) ?_)
  intro type htype
  have htype := depth_lt_of_option name hfield hdepth type htype
  exact (describes_type (Nat.le_of_lt htype)).union type.tag_mem

theorem describes_parameter (hdepth : parameter.toJson.depth ≤ fuel) :
    Describes "type" "functionParameter" (fun _ => parameterMember fuel) parameter.toJson
      parameter :=
  ⟨_, rfl, rfl, fun _ => map₂_eq_valid.mpr
    ⟨_, _, required_eq rfl (reads_text parameter.name), hintField_eq "type_hint" rfl hdepth, rfl⟩⟩

theorem parameters_eq
    (hfield : fields.lookup "parameters" = some (.array (found.map Parameter.toJson)))
    (hdepth : (Json.object fields).depth ≤ fuel) :
    parameters fuel location fields = .valid found := by
  refine defaulted_eq hfield (reads_listOf fun parameter hparameter => ?_)
  have hparameter := depth_lt_of_list "parameters" hfield hdepth parameter hparameter
  exact (describes_parameter (Nat.le_of_lt hparameter)).only

theorem strings_eq (hfield : fields.lookup name = some (ofStrings texts)) :
    required name (listOf text) location fields = .valid texts :=
  required_eq hfield (reads_listOf fun word _ => reads_text word)

theorem reads_docString (word : String) :
    Reads (only "docString" fun _ => docMember) (docJson word) word :=
  Describes.only ⟨_, rfl, rfl, fun _ => required_eq rfl (reads_text word)⟩

/-- What a reader with some fuel reads. -/
def ReadsNode (fuel : Nat) : Prop :=
  ∀ n : Node, n.Storable → n.toJson.depth < fuel →
    Reads (union "type" nodeKinds (nodeMember fuel)) n.toJson n

theorem ReadsNode.body (h : ReadsNode fuel) {name : String} {body : List Node}
    (hfield : fields.lookup name = some (.array (body.map Node.toJson)))
    (hdepth : (Json.object fields).depth ≤ fuel) (hinner : ∀ n ∈ body, n.Storable) :
    defaulted name [] (listOf (union "type" nodeKinds (nodeMember fuel))) location fields =
      .valid body :=
  defaulted_eq hfield (reads_listOf fun n hn =>
    h n (hinner n hn) (depth_lt_of_list name hfield hdepth n hn))

theorem ReadsNode.describes_arm (h : ReadsNode fuel) (hstorable : arm.Storable)
    (hdepth : arm.toJson.depth ≤ fuel) :
    Describes "type" arm.tag (armMember fuel (union "type" nodeKinds (nodeMember fuel))) arm.toJson
      arm := by
  cases hstorable with
  | @arm value body test inner =>
    have hvalue := depth_lt_of_option "case_value" rfl hdepth
    have hbody := h body inner (depth_lt_of_field "body" rfl hdepth)
    refine ⟨_, rfl, rfl, fun _ => map₂_eq_valid.mpr
      ⟨_, _, defaulted_eq rfl (reads_ofOption ?_ ?_), required_eq rfl hbody, rfl⟩⟩
    · intro e
      exact e.toJson_ne_null
    · intro e he
      exact reads_expr e.tag_mem (test e he) (hvalue e he)
  | comment text => exact ⟨_, rfl, rfl, fun _ => map_required_eq rfl (reads_text text)⟩

theorem ReadsNode.describes_node (h : ReadsNode fuel) {n : Node} (hstorable : n.Storable)
    (hdepth : n.toJson.depth ≤ fuel) :
    Describes "type" n.tag (nodeMember (fuel + 1)) n.toJson n := by
  cases hstorable with
  | @expr value content =>
    exact (readsExpr fuel value content hdepth).map fun _ _ => nodeMember_expression value.tag_mem
  | parameter parameter => exact (describes_parameter hdepth).map fun _ _ => rfl
  | @function name parameters body returns doc inner =>
    rw [Node.toJson, Node.listJson_eq] at *
    exact ⟨_, rfl, rfl, fun _ => map₅_eq_valid.mpr ⟨_, _, _, _, _,
      required_eq rfl (reads_text name), parameters_eq rfl hdepth, h.body rfl hdepth inner,
      hintField_eq "return_type" rfl hdepth,
      defaulted_eq rfl (reads_ofOption (by simp [docJson, tagged]) fun word _ =>
        reads_docString word), rfl⟩⟩
  | @graphNode name parameters body returns visibility inner =>
    rw [Node.toJson, Node.listJson_eq] at *
    have hword : ∀ v : Visibility, Visibility.ofText? v.toText = some v := by rintro ⟨⟩ <;> rfl
    exact ⟨_, rfl, rfl, fun _ => map₅_eq_valid.mpr ⟨_, _, _, _, _,
      required_eq rfl (reads_text name), parameters_eq rfl hdepth, h.body rfl hdepth inner,
      hintField_eq "return_type" rfl hdepth,
      defaulted_eq rfl (reads_ofOption (by simp) fun v _ => reads_wordOf (hword v)), rfl⟩⟩
  | @goto target arguments members =>
    rw [Node.toJson, Expr.itemsJson_eq] at *
    have hitems := depth_lt_of_list "arguments" rfl hdepth
    refine ⟨_, rfl, rfl, fun _ => map₂_eq_valid.mpr ⟨_, _,
      required_eq rfl (reads_text target), defaulted_eq rfl (reads_listOf fun e he => ?_), rfl⟩⟩
    exact reads_expr (members e he).1 (members e he).2 (hitems e he)
  | @uses tools nonempty =>
    exact ⟨_, rfl, rfl, fun _ => map_required_eq rfl
      (reads_nonemptyOf nonempty fun word _ => reads_text word)⟩
  | @assign name hint value content =>
    have hvalue := h value content (depth_lt_of_field "value" rfl hdepth)
    exact ⟨_, rfl, rfl, fun _ => map₃_eq_valid.mpr ⟨_, _, _,
      required_eq rfl (reads_text name), hintField_eq "type_hint" rfl hdepth,
      required_eq rfl hvalue, rfl⟩⟩
  | @ret value result =>
    have hvalue := depth_lt_of_option "value" rfl hdepth
    refine ⟨_, rfl, rfl, fun _ => map_eq_valid.mpr
      ⟨_, defaulted_eq rfl (reads_ofOption Expr.toJson_ne_null fun e he => ?_), rfl⟩⟩
    exact reads_expr e.tag_mem (result e he) (hvalue e he)
  | hint name type =>
    have htype := describes_type (Nat.le_of_lt (depth_lt_of_field "variable_type" rfl hdepth))
    exact ⟨_, rfl, rfl, fun _ => map₂_eq_valid.mpr ⟨_, _,
      required_eq rfl (reads_text name), required_eq rfl (htype.union type.tag_mem), rfl⟩⟩
  | @ifElse condition thenBody elseBody test inner other =>
    cases elseBody with
    | none =>
      rw [Node.toJson, Node.listJson_eq] at *
      have hcondition := reads_expr test.1 test.2 (depth_lt_of_field "condition" rfl hdepth)
      exact ⟨_, rfl, rfl, fun _ => map₃_eq_valid.mpr ⟨_, _, _,
        required_eq rfl hcondition, h.body rfl hdepth inner,
        defaulted_eq rfl (reads_nullable_null _), rfl⟩⟩
    | some nodes =>
      rw [Node.toJson, Node.listJson_eq, Node.listJson_eq] at *
      have hcondition := reads_expr test.1 test.2 (depth_lt_of_field "condition" rfl hdepth)
      have hnodes := depth_lt_of_list "else_body" rfl hdepth
      exact ⟨_, rfl, rfl, fun _ => map₃_eq_valid.mpr ⟨_, _, _,
        required_eq rfl hcondition, h.body rfl hdepth inner,
        defaulted_eq rfl (reads_nullable_some (by simp) (reads_listOf fun n hn =>
          h n (other nodes rfl n hn) (hnodes n hn))), rfl⟩⟩
  | @loop condition body test inner =>
    rw [Node.toJson, Node.listJson_eq] at *
    have hcondition := reads_expr test.1 test.2 (depth_lt_of_field "condition" rfl hdepth)
    exact ⟨_, rfl, rfl, fun _ => map₂_eq_valid.mpr ⟨_, _,
      required_eq rfl hcondition, h.body rfl hdepth inner, rfl⟩⟩
  | @select subject arms value choices =>
    rw [Node.toJson, Node.armsJson_eq] at *
    have hsubject := reads_expr subject.tag_mem value (depth_lt_of_field "expression" rfl hdepth)
    have harms := depth_lt_of_list "cases" rfl hdepth
    refine ⟨_, rfl, rfl, fun _ => map₂_eq_valid.mpr ⟨_, _, required_eq rfl hsubject,
      defaulted_eq rfl (reads_listOf fun arm harm => ?_), rfl⟩⟩
    exact (h.describes_arm (choices arm harm) (Nat.le_of_lt (harms arm harm))).union arm.tag_mem
  | @thread kind body inner =>
    rw [Node.toJson, Node.listJson_eq] at *
    have hword : ThreadKind.ofText? kind.toText = some kind := by cases kind <;> rfl
    exact ⟨_, rfl, rfl, fun _ => map₂_eq_valid.mpr ⟨_, _,
      defaulted_eq rfl (reads_wordOf hword), h.body rfl hdepth inner, rfl⟩⟩
  | @special name value content =>
    have hvalue := reads_expr value.tag_mem content (depth_lt_of_field "value" rfl hdepth)
    exact ⟨_, rfl, rfl, fun _ => map₂_eq_valid.mpr ⟨_, _,
      required_eq rfl (reads_text name), required_eq rfl hvalue, rfl⟩⟩
  | @timed body prints inner =>
    rw [Node.toJson, Node.listJson_eq] at *
    exact ⟨_, rfl, rfl, fun _ => map₂_eq_valid.mpr ⟨_, _,
      h.body rfl hdepth inner, defaulted_eq rfl (reads_flag prints), rfl⟩⟩
  | importNames kind names path =>
    have hword : ImportKind.ofText? kind.toText = some kind := by cases kind <;> rfl
    exact ⟨_, rfl, rfl, fun _ => map₃_eq_valid.mpr ⟨_, _, _,
      required_eq rfl (reads_wordOf hword), strings_eq rfl, required_eq rfl (reads_text path), rfl⟩⟩
  | importNodes _ path | importTools _ path =>
    exact ⟨_, rfl, rfl, fun _ => map₂_eq_valid.mpr ⟨_, _,
      strings_eq rfl, required_eq rfl (reads_text path), rfl⟩⟩
  | comment text | blockComment text =>
    exact ⟨_, rfl, rfl, fun _ => map_required_eq rfl (reads_text text)⟩
  | newline => exact ⟨_, rfl, rfl, fun _ => rfl⟩

end Fields

theorem readsNode (fuel : Nat) : ReadsNode fuel := by
  induction fuel with
  | zero =>
    intro n _ hdepth
    exact absurd hdepth (Nat.not_lt_zero _)
  | succ fuel ih =>
    intro n hstorable hdepth
    exact (ih.describes_node hstorable (Nat.le_of_lt_succ hdepth)).union n.tag_mem

end Decode

namespace Model

theorem reads_dump {fuel : Nat} {m : Model} {value : m.Value} (h : m.Admits value)
    (hdepth : (m.dump value).depth < fuel) : Reads (m.read fuel) (m.dump value) value := by
  have hle := Nat.le_of_lt hdepth
  cases m with
  | type kind =>
    have htype := (Decode.describes_type hle).only
    rw [show Ty.tag value = kind from h] at htype
    exact htype
  | segment kind =>
    have hsegment := (Decode.describes_segment value).only
    rw [show Segment.tag value = kind from h] at hsegment
    exact hsegment
  | step kind =>
    obtain ⟨fields, hfields, hselector, hread⟩ := (Decode.readsExpr fuel).describes_step h.2 hle
    rw [show Step.tag value = kind from h.1] at hselector hread
    intro location
    rw [show (Model.step kind).dump value = .object fields from hfields]
    exact map₂_eq_valid.mpr ⟨_, _, constant_eq hselector, hread location, rfl⟩
  | entry =>
    have hvalue := Nat.lt_trans (depth_lt_of_field "value" rfl (Nat.le_refl _)) hdepth
    exact Decode.entryMember_eq (Decode.reads_expr (Expr.tag_mem _) h hvalue)
  | expr kind =>
    have hexpr := (Decode.readsExpr fuel value h.2 hle).only
    rw [show Expr.tag value = kind from h.1] at hexpr
    exact hexpr
  | docString => exact Decode.reads_docString value
  | node kind =>
    cases fuel with
    | zero => exact absurd hdepth (Nat.not_lt_zero _)
    | succ fuel =>
      have hnode := ((Decode.readsNode fuel).describes_node h.2 (Nat.le_of_lt_succ hdepth)).only
      rw [show Node.tag value = kind from h.1] at hnode
      exact hnode
  | arm =>
    have harm := ((Decode.readsNode fuel).describes_arm h.2 hle).only
    rw [show Arm.tag value = "matchBlockCase" from h.1] at harm
    exact harm
  | program =>
    obtain ⟨nodes⟩ := value
    have hnodes : Reads (listOf (Decode.node fuel)) (.array (nodes.map Node.toJson)) nodes := by
      rw [dump, Program.toJson, Node.listJson_eq] at hle
      exact reads_listOf fun n hn =>
        Decode.readsNode fuel n (h n hn) (depth_lt_of_list "nodes" rfl hle n hn)
    rw [← Node.listJson_eq] at hnodes
    have hprogram : Describes "type" "adlProgram" (fun _ location fields => Program.mk <$>
        defaulted "nodes" [] (listOf (Decode.node fuel)) location fields)
        (Program.toJson ⟨nodes⟩) ⟨nodes⟩ :=
      ⟨_, rfl, rfl, fun _ => map_eq_valid.mpr ⟨_, defaulted_eq rfl hnodes, rfl⟩⟩
    exact hprogram.only

end Model

end AgentLang
