import AgentLang.Compile.Statement
import AgentLang.Target.Module

/-!
# Compiling programs

A script is one section with all nodes in program order. Around a graph every definition is a
section of its own, and every other node that does something is a step.
-/

namespace AgentLang.Compile

open Target (Code Section Stmt)

/-- A node with what has to come ahead of it. -/
def statement (setting : Setting) (n : Node) : Build (List Stmt) := do
  let (hoisted, stmts) ← Build.collecting (node setting n)
  return hoisted ++ stmts

/-- Whether a node stays at the top level of a module with a graph. -/
def staysOutside : Node → Bool
  | .comment _ => true
  | .blockComment _ => true
  | .importNames .. => true
  | .importNodes .. => true
  | .importTools .. => true
  | .hint .. => true
  | .uses _ => true
  | _ => false

/-- The value of a node that is evaluated for its result. -/
def plainValue? : Node → Option Expr
  | .expr (.binary op left right) => if op.isAssignment then none else some (.binary op left right)
  | .expr value => some value
  | _ => none

/-- The body of the step that a node becomes. A plain value is the data of the next state. -/
def stepBody (setting : Setting) (n : Node) : Build (List Stmt) := do
  match plainValue? n with
  | some value =>
    let holder ← Build.fresh .result
    let (hoisted, code) ← Build.collecting (expr setting value)
    return hoisted ++ [.hold holder code, .retHeld holder]
  | none =>
    let stmts ← statement setting n
    return stmts ++ (if endsInTransfer [n] then [] else [.retState])

def stepSection (setting : Setting) (n : Node) : Build Section := do
  let temp ← Build.fresh .step
  let stmts ← Build.inScope .step none (stepBody setting n)
  return .step temp n.assignedNames stmts

/-- The sections that a node of the top level becomes in a module with a graph. -/
def nodeSections (setting : Setting) (n : Node) : Build (List Section) := do
  match n with
  | .newline => return []
  | .function name parameters _ _ _ =>
    let stmts ← statement setting n
    let holder ← Build.fresh .result
    return [.statements stmts, .functionNode name parameters.length holder]
  | .graphNode name _ _ _ visibility =>
    let stmts ← statement setting n
    return .statements stmts :: (if isEntry visibility then [.entryPoint name] else [])
  | _ =>
    if staysOutside n then
      return [.statements (← statement setting n)]
    else
      return [← stepSection setting n]

def sections (setting : Setting) (program : Program) : Build (List Section) := do
  match setting.backend with
  | .script => return [.statements (← body setting false program.nodes)]
  | .graph => return (← program.nodes.mapM (nodeSections setting)).flatten

end Compile

/-- How a program is compiled. A value may have no written form. -/
structure CompileOptions where
  backend : Backend := .script
  graphName : String := "adl"
  model : Except Json.Unwritable Json := .ok (.string "gpt-4o-mini")
  host : Except Json.Unwritable Json := .ok (.string "http://localhost:1065")
  debug : Bool := false

/-- The graph of the module, for a backend that has one. -/
def CompileOptions.graphSetup? (options : CompileOptions) : Option Target.GraphSetup :=
  if options.backend.usesGraph then some ⟨options.graphName, options.debug⟩ else none

/-- The emitted module, and where compilation stood at the end. -/
structure Compiled where
  module : Target.Module
  state : Compile.State

namespace Program

def setting (program : Program) (backend : Backend) : Compile.Setting :=
  ⟨backend, .ofProgram program⟩

def compile (options : CompileOptions) (program : Program) : Except CompileError Compiled := do
  let (result, state) := (Compile.sections (program.setting options.backend) program).run {}
  let sections ← result
  let model ← options.model.mapError .unwritable
  let host ← options.host.mapError .unwritable
  return {
    module := {
      model := model, host := host, used := state.used, sections := sections,
      graph := options.graphSetup? }
    state := state }

/-- The nodes of a program as the body of a scope. -/
def compileIn (backend : Backend) (scope : Scope) (program : Program) :
    Except CompileError (List Target.Stmt) :=
  let step := Compile.body (program.setting backend) false program.nodes
  ((match scope with
    | .module => step
    | scope => Compile.Build.inScope scope none step).run {}).1

end Program

/-- The definitions of helpers for names of built-ins. -/
def helperSource (names : List String) : Except CompileError String :=
  let unknown := names.filter fun name => (Target.Builtin.ofName? name).isNone
  if unknown.isEmpty then
    .ok (Target.Builtin.helperSource (names.filterMap Target.Builtin.ofName?))
  else
    .error (.notBuiltin (Names.ofList unknown).list)

end AgentLang
