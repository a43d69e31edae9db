import AgentLang.Compile.Context
import AgentLang.Compile.Declared
import AgentLang.Compile.Error
import AgentLang.Target.Builtin
import AgentLang.Target.Schema
import AgentLang.Target.Stmt

/-!
# Steps of compilation

A step works on a state and may fail. The state survives a failure, and whatever a step opens is
closed again in both cases.
-/

namespace AgentLang

inductive Scope where
  | module
  | function
  | node
  /-- A statement of the top level that is a node of the graph by itself. -/
  | step
  deriving DecidableEq, Repr

namespace Compile

open Target (Builtin Code Purpose Stmt Temp)

structure State where
  context : Context Scope Ty Stmt := { outermost := .module }
  /-- The built-ins in use. -/
  used : List Builtin := []
  /-- The type that each hinted name was given last. -/
  hints : List (String × Ty) := []

/-- What is fixed while one program is compiled. -/
structure Setting where
  backend : Backend
  declared : Declared

abbrev Build := ExceptT CompileError (StateM State)

namespace Build

variable {α : Type}

def fail (error : CompileError) : Build α := throw error

/-- The given result, or a failure where there is none. -/
def ofOption (error : CompileError) : Option α → Build α
  | some value => pure value
  | none => throw error

def modifyContext (f : Context Scope Ty Stmt → Context Scope Ty Stmt) : Build Unit :=
  modify fun s => { s with context := f s.context }

def nextIndex : Build Nat := do
  let s ← get
  let (index, context) := s.context.nextIndex
  set { s with context := context }
  return index

def fresh (purpose : Purpose) : Build Temp := do
  return ⟨purpose, ← nextIndex⟩

def scope : Build Scope := do
  return (← get).context.scope

/-! ### What is opened is closed -/

/-- Runs a step between two changes of the context. The second change also follows a failure, and
sees the context from before the first. -/
def between (opening : Context Scope Ty Stmt → Context Scope Ty Stmt)
    (closing : Context Scope Ty Stmt → Context Scope Ty Stmt → Context Scope Ty Stmt)
    (step : Build α) : Build α :=
  fun before =>
    let (result, after) := step { before with context := opening before.context }
    (result, { after with context := closing before.context after.context })

def inScope (scope : Scope) (returns : Option Ty) : Build α → Build α :=
  between (·.enter ⟨scope, returns⟩) fun _ after => after.exit

def expecting (type : Option Ty) : Build α → Build α :=
  between (·.expect type) fun _ after => after.unexpect

/-- Tools that are offered inside do not wait outside, nor the other way round. -/
def withOwnTools : Build α → Build α :=
  between (·.withTools []) fun before after => after.withTools before.pendingTools

/-- A definition has its own scope and its own tools. -/
def inDefinition (scope : Scope) (returns : Option Ty) (step : Build α) : Build α :=
  inScope scope returns (withOwnTools step)

/-- Runs a step with a place for what has to come ahead of its result. -/
def collecting (step : Build α) : Build (List Stmt × α) :=
  fun before =>
    let (result, after) := step { before with context := before.context.pushHoist }
    match after.context.popHoist? with
    | some (hoisted, context) =>
      (result.map fun value => (hoisted, value), { after with context := context })
    | none => (result.map fun value => ([], value), after)

/-- Puts statements ahead of the current one. -/
def hoist (stmts : List Stmt) : Build Unit := do
  let s ← get
  let context ← ofOption .noOpenFrame (s.context.hoist? stmts)
  set { s with context := context }

/-! ### Tools, hints and built-ins -/

/-- Offers a tool to the next prompt. One that is offered already is not offered twice. -/
def offerTool (tool : String) : Build Unit :=
  modifyContext fun c => if tool ∈ c.pendingTools then c else c.addTool tool

def takeTools : Build (List String) := do
  let s ← get
  let (tools, context) := s.context.takeTools
  set { s with context := context }
  return tools

def setHint (name : String) (type : Ty) : List (String × Ty) → List (String × Ty)
  | [] => [(name, type)]
  | (known, old) :: rest =>
    if known = name then (name, type) :: rest else (known, old) :: setHint name type rest

def storeHint (name : String) (type : Ty) : Build Unit :=
  modify fun s => { s with hints := setHint name type s.hints }

/-- Stores the hint of a name, if it has one. -/
def storeHint? (name : String) : Option Ty → Build Unit
  | none => pure ()
  | some type => storeHint name type

def storeParameterHints (parameters : List Parameter) : Build Unit :=
  parameters.forM fun parameter => storeHint? parameter.name parameter.hint

def hintOf (name : String) : Build (Option Ty) := do
  return (← get).hints.lookup name

def useBuiltin (builtin : Builtin) : Build Unit :=
  modify fun s => if builtin ∈ s.used then s else { s with used := s.used ++ [builtin] }

/-! ### Types -/

def typeCode (type : Ty) : Build String :=
  ofOption (.badNumber type.toText) type.typeCode?

def typeCode? : Option Ty → Build (Option String)
  | none => pure none
  | some type => some <$> typeCode type

/-- The schema of a response of the expected type. -/
def responseSchema : Build Json := do
  let type := (← get).context.expectedType
  ofOption (.badNumber ((type.map Ty.toText).getD "")) (Ty.responseSchema? type)

end Build
end Compile
end AgentLang
