import AgentLang.Compile.Build

/-!
# Compiling expressions

Operands are compiled from left to right. A prompt takes its number first, then its configuration is
compiled, then it takes the tools that wait.
-/

namespace AgentLang.Compile

open Target (Builtin Code Link PromptFunction Stmt)

/-- The name that a call uses. Names of the program go before built-ins. -/
def resolveFunction (setting : Setting) (name : String) : Build String := do
  if name ∈ setting.declared.functions ∨ name ∈ setting.declared.nodes then
    return name
  match Builtin.ofName? name with
  | some builtin => do
    Build.useBuiltin builtin
    return builtin.target
  | none => return name

/-- Whether a call goes through the graph. -/
def isInvoked (setting : Setting) (name : String) : Bool :=
  setting.backend.usesGraph &&
    (name ∈ setting.declared.topFunctions || name ∈ setting.declared.nodes)

def callCode (setting : Setting) (name : String) (arguments : List Code) : Build Code := do
  if isInvoked setting name then
    return .invoke name arguments
  else
    return .call (← resolveFunction setting name) arguments

mutual

def expr (setting : Setting) : Expr → Build Code
  | .number digits => return .number digits
  | .string segments => return .string segments false
  | .multiline segments => return .string segments true
  | .boolean value => return .boolean value
  | .name ident => return .name ident
  | .prompt segments config => do
    let index ← Build.nextIndex
    let schema ← Build.responseSchema
    let config ← configEntries setting config
    let tools ← Build.takeTools
    let parameters := Segment.names segments
    Build.hoist [.prompt {
      index := index, parameters := parameters, text := segments, schema := schema,
      config := config, tools := tools }]
    return .prompt index parameters
  | .access base chain => return .access (← expr setting base) (← links setting chain)
  | .array items => return .list (← exprs setting items)
  | .object entries => return .dict (← exprEntries setting entries)
  | .call function arguments => do
    let arguments ← exprs setting arguments
    callCode setting function arguments
  | .binary op left right => return .binary op (← expr setting left) (← expr setting right)

def exprs (setting : Setting) : List Expr → Build (List Code)
  | [] => return []
  | first :: rest => return (← expr setting first) :: (← exprs setting rest)

def exprEntries (setting : Setting) : List (String × Expr) → Build (List (String × Code))
  | [] => return []
  | (key, value) :: rest =>
    return (key, ← expr setting value) :: (← exprEntries setting rest)

def configEntries (setting : Setting) :
    Option (List (String × Expr)) → Build (Option (List (String × Code)))
  | none => return none
  | some entries => return some (← exprEntries setting entries)

def links (setting : Setting) : List Step → Build (List Link)
  | [] => return []
  | .property name :: rest => return .property name :: (← links setting rest)
  | .index index :: rest => return .index (← expr setting index) :: (← links setting rest)
  | .method function arguments :: rest =>
    return .method function (← exprs setting arguments) :: (← links setting rest)

end

end AgentLang.Compile
