import AgentLang.Proofs.Target.Parts

/-!
# The statements of one function

A definition is a statement of the function around it, and the statements inside the definition are
not. What a statement assigns, annotates or returns concerns the function that it belongs to.
-/

namespace AgentLang.Target

open List

mutual

/-- The statement and those inside it that belong to the same function. -/
def Stmt.own : Stmt → List Stmt
  | stmt@(.ifChain branches otherwise) =>
    stmt :: Stmt.branchOwn branches ++ Stmt.otherwiseOwn otherwise
  | stmt@(.loop _ body) => stmt :: Stmt.listOwn body
  | stmt@(.select _ _ arms otherwise) =>
    stmt :: Stmt.choiceOwn arms ++ Stmt.otherwiseOwn otherwise
  | stmt@(.thread _ _ body _) => stmt :: Stmt.listOwn body
  | stmt@(.timed _ body _ _) => stmt :: Stmt.listOwn body
  | stmt => [stmt]

def Stmt.listOwn : List Stmt → List Stmt
  | [] => []
  | stmt :: stmts => stmt.own ++ Stmt.listOwn stmts

def Stmt.branchOwn : List (Code × List Stmt) → List Stmt
  | [] => []
  | (_, body) :: branches => Stmt.listOwn body ++ Stmt.branchOwn branches

def Stmt.otherwiseOwn : Option (List Stmt) → List Stmt
  | none => []
  | some body => Stmt.listOwn body

def Stmt.choiceOwn : List Choice → List Stmt
  | [] => []
  | .note _ :: arms => Stmt.choiceOwn arms
  | .case _ body :: arms => Stmt.listOwn body ++ Stmt.choiceOwn arms

end

/-- The name that code updates where it stands as a statement. Its first operation decides. -/
def Code.updated? : Code → Option String
  | .binary op (.name ident) _ => if op.isAssignment then some ident else none
  | .binary _ left _ => left.updated?
  | _ => none

namespace Stmt

theorem mem_own_self (stmt : Stmt) : stmt ∈ stmt.own := by
  cases stmt <;> exact mem_cons_self

theorem listOwn_append (stmts others : List Stmt) :
    listOwn (stmts ++ others) = listOwn stmts ++ listOwn others := by
  induction stmts with
  | nil => rfl
  | cons stmt rest ih => rw [cons_append, listOwn, ih, listOwn, append_assoc]

theorem listOwn_singleton (stmt : Stmt) : listOwn [stmt] = stmt.own := append_nil _

theorem listOwn_prompts (functions : List PromptFunction) :
    listOwn (functions.map .prompt) = functions.map .prompt := by
  induction functions with
  | nil => rfl
  | cons f rest ih =>
    rw [map_cons, listOwn, ih]
    rfl

theorem listOwn_notes (lines : List String) : listOwn (lines.map .note) = lines.map .note := by
  induction lines with
  | nil => rfl
  | cons line rest ih =>
    rw [map_cons, listOwn, ih]
    rfl

/-! ### What a statement does by itself -/

/-- The variable of the program that a statement assigns. -/
def assigned? : Stmt → Option String
  | .assign name _ _ => some name
  | .expr value => value.updated?
  | .thread _ _ _ binding => bindingName? binding
  | .timed _ _ _ binding => bindingName? binding
  | _ => none

/-- Whether a statement gives a variable a type. -/
def annotates : Stmt → Bool
  | .assign _ (some _) _ => true
  | .annotate .. => true
  | .expr (.parameter _ (some _)) => true
  | _ => false

def isReturn : Stmt → Bool
  | .ret _ => true
  | .retState => true
  | .retData _ => true
  | .retHeld _ => true
  | .retCall .. => true
  | .goTo .. => true
  | _ => false

def isDefinition : Stmt → Bool
  | .define .. => true
  | .defineNode .. => true
  | _ => false

/-- A statement that neither assigns nor annotates a variable, and neither returns nor defines. -/
def isPlain (stmt : Stmt) : Bool :=
  stmt.assigned?.isNone && !stmt.annotates && !stmt.isReturn && !stmt.isDefinition

theorem isPlain_iff {stmt : Stmt} :
    stmt.isPlain ↔ stmt.assigned? = none ∧ stmt.annotates = false ∧ stmt.isReturn = false ∧
      stmt.isDefinition = false := by
  simp [isPlain, and_assoc]

/-- A statement without code: a blank line or a comment. -/
def isTrivia (stmt : Stmt) : Bool :=
  stmt.lines.all (!isCodeLine ·)

/-! ### Returning a state of the graph -/

/-- The statement returns the state, the state with new data, or what a node makes of a state. -/
def ReturnsState (stmt : Stmt) : Prop :=
  stmt.lines = ["return state"] ∨ (∃ data, stmt.lines = ["return " ++ stateWith data]) ∨
    ∃ arguments, stmt.lines = ["return graph.go_to(" ++ arguments ++ ")"]

theorem returnsState_retData (value : Option Code) : (retData value).ReturnsState :=
  .inr (.inl ⟨_, rfl⟩)

theorem returnsState_retHeld (temp : Temp) : (retHeld temp).ReturnsState :=
  .inr (.inl ⟨_, rfl⟩)

theorem returnsState_goTo (handOn : Bool) (node : String) (arguments : List Code) :
    (goTo handOn node arguments).ReturnsState := by
  refine .inr (.inr ⟨Text.quoteAscii node ++ ", "
    ++ (if handOn then stateWith else newState) (bracketed arguments), ?_⟩)
  simp only [lines, String.append_assoc]

/-- The last statement with code returns a state. -/
def EndsInState (body : List Stmt) : Prop :=
  ∃ before last after, body = before ++ last :: after ∧ last.ReturnsState ∧
    ∀ stmt ∈ after, stmt.isTrivia

theorem EndsInState.prepend (h : EndsInState body) (stmts : List Stmt) :
    EndsInState (stmts ++ body) := by
  obtain ⟨before, last, after, rfl, hlast, hafter⟩ := h
  exact ⟨stmts ++ before, last, after, (append_assoc ..).symm, hlast, hafter⟩

theorem EndsInState.append (h : EndsInState body) (hstmts : ∀ stmt ∈ stmts, stmt.isTrivia) :
    EndsInState (body ++ stmts) := by
  obtain ⟨before, last, after, rfl, hlast, hafter⟩ := h
  refine ⟨before, last, after ++ stmts, by simp, hlast, fun stmt hstmt => ?_⟩
  rcases mem_append.mp hstmt with hstmt | hstmt
  · exact hafter stmt hstmt
  · exact hstmts stmt hstmt

theorem endsInState_concat (h : last.ReturnsState) (before : List Stmt) :
    EndsInState (before ++ [last]) :=
  ⟨before, last, [], rfl, h, nofun⟩

/-- Every return of a function returns a state, and the function cannot be left without one. -/
structure AlwaysReturnsState (body : List Stmt) : Prop where
  returns : ∀ stmt ∈ listOwn body, stmt.isReturn → stmt.ReturnsState
  last : EndsInState body

end Stmt
end AgentLang.Target
