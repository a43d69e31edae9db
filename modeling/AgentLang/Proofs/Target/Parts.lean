import AgentLang.Target.Module

/-!
# What emitted code is made of

The statements of all depths are listed in the order of their lines, each before those inside it.
-/

namespace AgentLang.Target

open List

mutual

/-- The statement and those inside it. -/
def Stmt.parts : Stmt → List Stmt
  | stmt@(.define _ _ _ _ body) => stmt :: Stmt.listParts body
  | stmt@(.defineNode _ body) => stmt :: Stmt.listParts body
  | stmt@(.ifChain branches otherwise) =>
    stmt :: Stmt.branchParts branches ++ Stmt.otherwiseParts otherwise
  | stmt@(.loop _ body) => stmt :: Stmt.listParts body
  | stmt@(.select _ _ arms otherwise) =>
    stmt :: Stmt.choiceParts arms ++ Stmt.otherwiseParts otherwise
  | stmt@(.thread _ _ body _) => stmt :: Stmt.listParts body
  | stmt@(.timed _ body _ _) => stmt :: Stmt.listParts body
  | stmt => [stmt]

def Stmt.listParts : List Stmt → List Stmt
  | [] => []
  | stmt :: stmts => stmt.parts ++ Stmt.listParts stmts

def Stmt.branchParts : List (Code × List Stmt) → List Stmt
  | [] => []
  | (_, body) :: branches => Stmt.listParts body ++ Stmt.branchParts branches

def Stmt.otherwiseParts : Option (List Stmt) → List Stmt
  | none => []
  | some body => Stmt.listParts body

def Stmt.choiceParts : List Choice → List Stmt
  | [] => []
  | .note _ :: arms => Stmt.choiceParts arms
  | .case _ body :: arms => Stmt.listParts body ++ Stmt.choiceParts arms

end

theorem Stmt.listParts_append (stmts others : List Stmt) :
    Stmt.listParts (stmts ++ others) = Stmt.listParts stmts ++ Stmt.listParts others := by
  induction stmts with
  | nil => rfl
  | cons stmt rest ih =>
    rw [cons_append, listParts, ih, listParts, append_assoc]

theorem Stmt.listParts_singleton (stmt : Stmt) : Stmt.listParts [stmt] = stmt.parts :=
  append_nil _

theorem Stmt.listParts_prompts (functions : List PromptFunction) :
    Stmt.listParts (functions.map .prompt) = functions.map .prompt := by
  induction functions with
  | nil => rfl
  | cons f rest ih =>
    rw [map_cons, listParts, ih]
    rfl

namespace Stmt

/-- The function that a statement defines for a prompt. -/
def prompt? : Stmt → Option PromptFunction
  | .prompt function => some function
  | _ => none

/-- The names that a definition or an import makes known. -/
def introduces? : Stmt → Option (List String)
  | .define name .. => some [name]
  | .defineNode name _ => some [name]
  | .importNames _ names => some names
  | .importModule _ shortName => some [shortName]
  | .importGraph _ names => some names
  | _ => none

theorem filterMap_prompt?_prompts (functions : List PromptFunction) :
    (functions.map Stmt.prompt).filterMap prompt? = functions := by
  rw [filterMap_map]
  exact filterMap_some

theorem filterMap_introduces?_prompts (functions : List PromptFunction) :
    (functions.map Stmt.prompt).filterMap introduces? = [] := by
  rw [filterMap_map]
  exact filterMap_eq_nil_iff.mpr fun _ _ => rfl

end Stmt

def Section.parts : Section → List Stmt
  | .statements body => Stmt.listParts body
  | .functionNode .. => []
  | .entryPoint _ => []
  | .step _ _ body => Stmt.listParts body

namespace Module

def parts (module : Module) : List Stmt :=
  module.sections.flatMap Section.parts

/-- The functions for prompts in the order in which they are emitted. -/
def prompts (module : Module) : List PromptFunction :=
  module.parts.filterMap Stmt.prompt?

end Module
end AgentLang.Target
