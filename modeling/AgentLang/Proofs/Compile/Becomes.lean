import AgentLang.Proofs.Compile.GraphLayout
import AgentLang.Proofs.Syntax.Reached

/-!
# What nodes become

Without the state, compilation is a relation between the nodes of a program and the code that they
become. It knows the functions that are put ahead of a statement and the numbers that are given out
on the way. Types, schemas and tools are left open.
-/

namespace AgentLang.Compile

open Target (Builtin Choice Code Link PromptFunction Section Stmt)

namespace Setting

/-- Whether the name belongs to the program. -/
def declares (setting : Setting) (name : String) : Bool :=
  name ∈ setting.declared.functions || name ∈ setting.declared.nodes

/-- The built-in that a call uses. -/
def builtin? (setting : Setting) : Called → Option Builtin
  | .function name =>
    if isInvoked setting name || setting.declares name then none else Builtin.ofName? name
  | .node _ => none

/-- The name that a plain call uses. -/
def resolved (setting : Setting) (name : String) : String :=
  if setting.declares name then name else Builtin.resolve name

/-- The code of a call. -/
def routed (setting : Setting) (name : String) (codes : List Code) : Code :=
  if isInvoked setting name then .invoke name codes else .call (setting.resolved name) codes

end Setting

/-! ### Expressions -/

mutual

/-- An expression becomes code behind functions for prompts. The numbers from behind the first up to
the second are given out. -/
inductive ExprBecomes (setting : Setting) :
    Nat → Expr → List PromptFunction → Code → Nat → Prop where
  | number (digits : String) :
      ExprBecomes setting n (.number digits) [] (.number digits) n
  | string (segments : List Segment) :
      ExprBecomes setting n (.string segments) [] (.string segments false) n
  | multiline (segments : List Segment) :
      ExprBecomes setting n (.multiline segments) [] (.string segments true) n
  | boolean (value : Bool) : ExprBecomes setting n (.boolean value) [] (.boolean value) n
  | name (ident : String) : ExprBecomes setting n (.name ident) [] (.name ident) n
  /-- A prompt takes its number before its configuration, and its function comes behind those that
  the configuration needs. -/
  | prompt (segments : List Segment) (schema : Json) (tools : List String)
      (hconfig : ConfigBecomes setting (n + 1) config functions entries n') :
      ExprBecomes setting n (.prompt segments config)
        (functions ++ [⟨n + 1, Segment.names segments, segments, schema, entries, tools⟩])
        (.prompt (n + 1) (Segment.names segments)) n'
  | access {links : List Link} (hbase : ExprBecomes setting n base functions code k)
      (hchain : ChainBecomes setting k chain later links n') :
      ExprBecomes setting n (.access base chain) (functions ++ later) (.access code links) n'
  | array (hitems : ExprsBecome setting n items functions codes n') :
      ExprBecomes setting n (.array items) functions (.list codes) n'
  | object (hentries : EntriesBecome setting n entries functions codes n') :
      ExprBecomes setting n (.object entries) functions (.dict codes) n'
  | call (function : String) (harguments : ExprsBecome setting n arguments functions codes n') :
      ExprBecomes setting n (.call function arguments) functions (setting.routed function codes) n'
  | binary (op : BinaryOp) (hleft : ExprBecomes setting n left functions first k)
      (hright : ExprBecomes setting k right later second n') :
      ExprBecomes setting n (.binary op left right) (functions ++ later) (.binary op first second)
        n'

inductive ExprsBecome (setting : Setting) :
    Nat → List Expr → List PromptFunction → List Code → Nat → Prop where
  | nil : ExprsBecome setting n [] [] [] n
  | cons (hfirst : ExprBecomes setting n first functions code k)
      (hrest : ExprsBecome setting k rest later codes n') :
      ExprsBecome setting n (first :: rest) (functions ++ later) (code :: codes) n'

inductive EntriesBecome (setting : Setting) :
    Nat → List (String × Expr) → List PromptFunction → List (String × Code) → Nat → Prop where
  | nil : EntriesBecome setting n [] [] [] n
  | cons (key : String) (hvalue : ExprBecomes setting n value functions code k)
      (hrest : EntriesBecome setting k rest later codes n') :
      EntriesBecome setting n ((key, value) :: rest) (functions ++ later) ((key, code) :: codes) n'

inductive ConfigBecomes (setting : Setting) : Nat → Option (List (String × Expr)) →
    List PromptFunction → Option (List (String × Code)) → Nat → Prop where
  | none : ConfigBecomes setting n none [] none n
  | some (hentries : EntriesBecome setting n entries functions codes n') :
      ConfigBecomes setting n (some entries) functions (some codes) n'

inductive ChainBecomes (setting : Setting) :
    Nat → List Step → List PromptFunction → List Link → Nat → Prop where
  | nil : ChainBecomes setting n [] [] [] n
  | property (name : String) {links : List Link}
      (hrest : ChainBecomes setting n rest functions links n') :
      ChainBecomes setting n (.property name :: rest) functions (.property name :: links) n'
  | index {links : List Link} (hvalue : ExprBecomes setting n value functions code k)
      (hrest : ChainBecomes setting k rest later links n') :
      ChainBecomes setting n (.index value :: rest) (functions ++ later) (.index code :: links) n'
  | method (name : String) {links : List Link}
      (harguments : ExprsBecome setting n arguments functions codes k)
      (hrest : ChainBecomes setting k rest later links n') :
      ChainBecomes setting n (.method name arguments :: rest) (functions ++ later)
        (.method name codes :: links) n'

end

/-! ### Nodes -/

mutual

/-- A node becomes statements, which stand behind functions for prompts. -/
inductive NodeBecomes (setting : Setting) :
    Nat → Node → List PromptFunction → List Stmt → Nat → Prop where
  | expr (hvalue : ExprBecomes setting n value functions code n') :
      NodeBecomes setting n (.expr value) functions [.expr code] n'
  | parameter (parameter : Parameter) (typeCode : Option String) :
      NodeBecomes setting n (.parameter parameter) []
        [.expr (.parameter parameter.name typeCode)] n
  | function {inner : List Node} (shown : List (String × Option String)) (result : Option String)
      (hshown : shown.map Prod.fst = parameters.map Parameter.name)
      (hinner : BodyBecomes setting n inner stmts n') :
      NodeBecomes setting n (.function name parameters inner returns doc) []
        [.define name shown result doc stmts] n'
  | plainNode {inner : List Node} (shown : List (String × Option String)) (result : Option String)
      (hshown : shown.map Prod.fst = parameters.map Parameter.name)
      (hbackend : setting.backend = .script) (hinner : BodyBecomes setting n inner stmts n') :
      NodeBecomes setting n (.graphNode name parameters inner returns visibility) []
        [.define name shown result none stmts] n'
  | graphNode {inner : List Node} (hbackend : setting.backend = .graph)
      (hinner : BodyBecomes setting n inner stmts n') :
      NodeBecomes setting n (.graphNode name parameters inner returns visibility) []
        [.defineNode name
          ((if parameters.isEmpty then [] else [.unpack (parameters.map (·.name))]) ++ stmts ++
            if endsInTransfer inner then [] else [.retState])] n'
  | goto (harguments : ExprsBecome setting n arguments functions codes n')
      (hstmt : gotoStmt setting target codes s = (.ok stmt, s')) :
      NodeBecomes setting n (.goto target arguments) functions [stmt] n'
  | uses (tools : List String) : NodeBecomes setting n (.uses tools) [] [] n
  | assign (name : String) (hint : Option Ty) (typeCode : Option String)
      (hvalue : ExprBecomes setting n value functions code n') :
      NodeBecomes setting n (.assign name hint (.expr value)) functions
        [.assign name typeCode code] n'
  | assignParameter (name : String) (hint : Option Ty) (parameter : Parameter)
      (typeCode parameterType : Option String) :
      NodeBecomes setting n (.assign name hint (.parameter parameter)) []
        [.assign name typeCode (.parameter parameter.name parameterType)] n
  | assignThread (name : String) (hint : Option Ty) (kind : ThreadKind) {inner : List Node}
      (hinner : BodyBecomes setting (n + 1) inner stmts n') :
      NodeBecomes setting n (.assign name hint (.thread kind inner)) []
        [.thread ⟨.savedMessages, n + 1⟩ kind stmts (some name)] n'
  | assignTimed (name : String) (hint : Option Ty) (prints : Bool) {inner : List Node}
      (hinner : BodyBecomes setting (n + 1) inner stmts n') :
      NodeBecomes setting n (.assign name hint (.timed inner prints)) []
        [.timed (n + 1) stmts prints (some name)] n'
  | retNothing (hstmt : retStmt setting none s = (.ok stmt, s')) :
      NodeBecomes setting n (.ret none) [] [stmt] n
  | ret (hvalue : ExprBecomes setting n value functions code n')
      (hstmt : retStmt setting (some code) s = (.ok stmt, s')) :
      NodeBecomes setting n (.ret (some value)) functions [stmt] n'
  | hint (name : String) (type : Ty) (typeCode : Option String) :
      NodeBecomes setting n (.hint name type) [] (typeCode.toList.map (.annotate name)) n
  | ifElse (hcondition : ExprBecomes setting n condition functions code k)
      (hthen : BodyBecomes setting k thenBody stmts m)
      (helse : ElseBecomes setting m elseBody later branches otherwise n') :
      NodeBecomes setting n (.ifElse condition thenBody elseBody) (functions ++ later)
        [.ifChain ((code, stmts) :: branches) otherwise] n'
  | loop {inner : List Node} (hcondition : ExprBecomes setting n condition functions code k)
      (hinner : BodyBecomes setting k inner stmts n') :
      NodeBecomes setting n (.loop condition inner) functions [.loop code stmts] n'
  | select {choices : List Choice} (hsubject : ExprBecomes setting (n + 1) subject functions code k)
      (harms : ArmsBecome setting k arms later choices otherwise n') :
      NodeBecomes setting n (.select subject arms) (functions ++ later)
        [.select ⟨.subject, n + 1⟩ code choices otherwise] n'
  | thread (kind : ThreadKind) {inner : List Node}
      (hinner : BodyBecomes setting (n + 1) inner stmts n') :
      NodeBecomes setting n (.thread kind inner) []
        [.thread ⟨.savedMessages, n + 1⟩ kind stmts none] n'
  | setModel (hvalue : ExprBecomes setting n value functions code n') :
      NodeBecomes setting n (.special "model" value) functions [.setModel code] n'
  | setMessages (hvalue : ExprBecomes setting n value functions code n') :
      NodeBecomes setting n (.special "messages" value) functions [.setMessages code] n'
  | timed (prints : Bool) {inner : List Node} (hinner : BodyBecomes setting (n + 1) inner stmts n') :
      NodeBecomes setting n (.timed inner prints) [] [.timed (n + 1) stmts prints none] n'
  | importNames (hstmt : importStmt kind names path s = (.ok stmt, s')) :
      NodeBecomes setting n (.importNames kind names path) [] [stmt] n
  | importNodes (names : List String) (path : String) :
      NodeBecomes setting n (.importNodes names path) [] [importNodesStmt setting names path] n
  | importTools (names : List String) (path : String) :
      NodeBecomes setting n (.importTools names path) []
        [.importNames (moduleName path) names] n
  | comment (text : String) :
      NodeBecomes setting n (.comment text) [] [.note ("#" ++ text)] n
  | blockComment (text : String) :
      NodeBecomes setting n (.blockComment text) [] ((noteLines text).map .note) n
  | newline : NodeBecomes setting n .newline [] [] n

/-- The statements of a body, each behind the functions for its prompts. -/
inductive BodyBecomes (setting : Setting) : Nat → List Node → List Stmt → Nat → Prop where
  | nil : BodyBecomes setting n [] [] n
  | newline (afterLineEnd : Bool) (hrest : BodyBecomes setting n rest stmts n') :
      BodyBecomes setting n (.newline :: rest)
        (if afterLineEnd then .blank :: stmts else stmts) n'
  | cons (hfirst : NodeBecomes setting n first functions stmts k)
      (hrest : BodyBecomes setting k rest others n') :
      BodyBecomes setting n (first :: rest) (functions.map .prompt ++ stmts ++ others) n'

/-- The functions for the conditions of a chain stand ahead of all of it. -/
inductive ElseBecomes (setting : Setting) : Nat → Option (List Node) → List PromptFunction →
    List (Code × List Stmt) → Option (List Stmt) → Nat → Prop where
  | none : ElseBecomes setting n none [] [] none n
  | chain (hcondition : ExprBecomes setting n condition functions code k)
      (hthen : BodyBecomes setting k thenBody stmts m)
      (helse : ElseBecomes setting m elseBody later branches otherwise n') :
      ElseBecomes setting n (some [.ifElse condition thenBody elseBody]) (functions ++ later)
        ((code, stmts) :: branches) otherwise n'
  | last (hlast : ∀ condition thenBody elseBody, nodes ≠ [.ifElse condition thenBody elseBody])
      (hnodes : BodyBecomes setting n nodes stmts n') :
      ElseBecomes setting n (some nodes) [] [] (some stmts) n'

/-- The functions for the values of arms stand ahead of the whole selection, those for the body of
an arm inside the arm. -/
inductive ArmsBecome (setting : Setting) : Nat → List Arm → List PromptFunction → List Choice →
    Option (List Stmt) → Nat → Prop where
  | nil : ArmsBecome setting n [] [] [] none n
  | comment (text : String) {choices : List Choice}
      (hrest : ArmsBecome setting n rest functions choices otherwise n') :
      ArmsBecome setting n (.comment text :: rest) functions (.note ("#" ++ text) :: choices)
        otherwise n'
  | left {inner : Node} (rest : List Arm) (hinner : NodeBecomes setting n inner functions stmts n') :
      ArmsBecome setting n (.arm none inner :: rest) [] []
        (some (functions.map .prompt ++ stmts)) n'
  | arm {inner : Node} {choices : List Choice}
      (hvalue : ExprBecomes setting n value functions code k)
      (hinner : NodeBecomes setting k inner own stmts m)
      (hrest : ArmsBecome setting m rest later choices otherwise n') :
      ArmsBecome setting n (.arm (some value) inner :: rest) (functions ++ later)
        (.case code (own.map .prompt ++ stmts) :: choices) otherwise n'

end

/-! ### Sections -/

/-- What a node of the top level becomes in a module with a graph. -/
inductive PartBecomes (setting : Setting) : Nat → Node → List Section → Nat → Prop where
  | newline : PartBecomes setting n .newline [] n
  | function {inner : List Node}
      (h : NodeBecomes setting n (.function name parameters inner returns doc) functions stmts n') :
      PartBecomes setting n (.function name parameters inner returns doc)
        [.statements (functions.map .prompt ++ stmts),
          .functionNode name parameters.length ⟨.result, n' + 1⟩] (n' + 1)
  | graphNode {inner : List Node}
      (h : NodeBecomes setting n (.graphNode name parameters inner returns visibility) functions stmts n') :
      PartBecomes setting n (.graphNode name parameters inner returns visibility)
        (.statements (functions.map .prompt ++ stmts) ::
          if isEntry visibility then [.entryPoint name] else []) n'
  | outside (houtside : staysOutside first) (h : NodeBecomes setting n first functions stmts n') :
      PartBecomes setting n first [.statements (functions.map .prompt ++ stmts)] n'
  | value (assigned : Names) (hplain : plainValue? (.expr value) = some value)
      (h : ExprBecomes setting (n + 1 + 1) value functions code n') :
      PartBecomes setting n (.expr value)
        [.step ⟨.step, n + 1⟩ assigned (functions.map .prompt ++
          [.hold ⟨.result, n + 1 + 1⟩ code, .retHeld ⟨.result, n + 1 + 1⟩])] n'
  | step (assigned : Names) (hfirst : first.isStep)
      (h : NodeBecomes setting (n + 1) first functions stmts n') :
      PartBecomes setting n first
        [.step ⟨.step, n + 1⟩ assigned (functions.map .prompt ++ stmts ++
          if endsInTransfer [first] then [] else [.retState])] n'

inductive PartsBecome (setting : Setting) : Nat → List Node → List Section → Nat → Prop where
  | nil : PartsBecome setting n [] [] n
  | cons (hfirst : PartBecomes setting n first group k)
      (hrest : PartsBecome setting k rest others n') :
      PartsBecome setting n (first :: rest) (group ++ others) n'

/-- The nodes of a program become the sections of a module. -/
inductive SectionsBecome (setting : Setting) : List Node → List Section → Nat → Prop where
  | script (hbackend : setting.backend = .script) (h : BodyBecomes setting 0 nodes stmts n) :
      SectionsBecome setting nodes [.statements stmts] n
  | graph {sections : List Section} (hbackend : setting.backend = .graph)
      (h : PartsBecome setting 0 nodes sections n) :
      SectionsBecome setting nodes sections n

end AgentLang.Compile
