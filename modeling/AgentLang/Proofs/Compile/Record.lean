import AgentLang.Proofs.Compile.Outcome
import AgentLang.Proofs.Syntax.Traversal
import AgentLang.Proofs.Target.Parts

/-!
# Records of compilation

What happens while a program is compiled is put down in order: every node that code is emitted for,
every prompt function that is put ahead of a statement, and where the body of a definition begins
and ends. Without its record a recorded step is the step itself.
-/

namespace AgentLang.Compile

open Target (Choice Code PromptFunction Section Stmt)

inductive Event where
  /-- Code is emitted for a node. -/
  | node (n : Node)
  /-- A prompt function is put ahead of the current statement. -/
  | prompt (function : PromptFunction)
  /-- The body of a function or of a graph node begins. -/
  | enters
  | leaves

namespace Event

def node? : Event → Option Node
  | .node n => some n
  | _ => none

def prompt? : Event → Option PromptFunction
  | .prompt function => some function
  | _ => none

/-- What an event means for the tools of later prompts. -/
def turn? : Event → Option Turn
  | .node (.uses tools) => some (.selects tools)
  | .node _ => none
  | .prompt function => some (.asks function.text)
  | .enters => some .enters
  | .leaves => some .leaves

theorem filterMap_node?_prompts (functions : List PromptFunction) :
    (functions.map Event.prompt).filterMap node? = [] := by
  rw [List.filterMap_map]
  exact List.filterMap_eq_nil_iff.mpr fun _ _ => rfl

end Event

/-- The prompt functions that wait ahead of the innermost statement only in the later state. -/
def State.newPrompts (before after : State) : List PromptFunction :=
  ((after.context.hoisted.headD []).drop (before.context.hoisted.headD []).length).filterMap
    Stmt.prompt?

/-- A step with the events that it leads to, also where it fails. -/
structure Recorded (α : Type) where
  run : Build α
  log : State → List Event

namespace Recorded

variable {α β : Type}

instance : Monad Recorded where
  pure a := ⟨pure a, fun _ => []⟩
  bind x f := {
    run := x.run >>= fun a => (f a).run
    log := fun s => x.log s ++
      match x.run s with
      | (.ok a, after) => (f a).log after
      | (.error _, _) => [] }

/-- A step that leads to no events. -/
def silent (step : Build α) : Recorded α := ⟨step, fun _ => []⟩

/-- A step whose events are the prompt functions that it puts ahead of the current statement. -/
def asking (step : Build α) : Recorded α :=
  ⟨step, fun s => (s.newPrompts (step s).2).map .prompt⟩

/-- A step that emits the code of a node. -/
def met (n : Node) (x : Recorded α) : Recorded α := ⟨x.run, fun s => .node n :: x.log s⟩

def inScope (scope : Scope) (returns : Option Ty) (x : Recorded α) : Recorded α where
  run := Build.inScope scope returns x.run
  log s := x.log { s with context := s.context.enter ⟨scope, returns⟩ }

def inDefinition (scope : Scope) (returns : Option Ty) (x : Recorded α) : Recorded α where
  run := Build.inDefinition scope returns x.run
  log s :=
    .enters :: x.log { s with context := (s.context.enter ⟨scope, returns⟩).withTools [] } ++
      [.leaves]

def expecting (type : Option Ty) (x : Recorded α) : Recorded α where
  run := Build.expecting type x.run
  log s := x.log { s with context := s.context.expect type }

def collecting (x : Recorded α) : Recorded (List Stmt × α) where
  run := Build.collecting x.run
  log s := x.log { s with context := s.context.pushHoist }

@[simp] theorem run_pure (a : α) : (pure a : Recorded α).run = pure a := rfl

@[simp] theorem run_bind (x : Recorded α) (f : α → Recorded β) :
    (x >>= f).run = x.run >>= fun a => (f a).run := rfl

@[simp] theorem run_silent (step : Build α) : (silent step).run = step := rfl

@[simp] theorem run_asking (step : Build α) : (asking step).run = step := rfl

@[simp] theorem run_met (n : Node) (x : Recorded α) : (met n x).run = x.run := rfl

@[simp] theorem run_inScope (scope : Scope) (returns : Option Ty) (x : Recorded α) :
    (inScope scope returns x).run = Build.inScope scope returns x.run := rfl

@[simp] theorem run_inDefinition (scope : Scope) (returns : Option Ty) (x : Recorded α) :
    (inDefinition scope returns x).run = Build.inDefinition scope returns x.run := rfl

@[simp] theorem run_expecting (type : Option Ty) (x : Recorded α) :
    (expecting type x).run = Build.expecting type x.run := rfl

@[simp] theorem run_collecting (x : Recorded α) :
    (collecting x).run = Build.collecting x.run := rfl

theorem log_bind {x : Recorded α} {f : α → Recorded β} {a : α} (h : x.run s = (.ok a, after)) :
    (x >>= f).log s = x.log s ++ (f a).log after := by
  change x.log s ++ _ = _
  rw [h]

end Recorded

open Recorded (silent asking met inScope inDefinition expecting collecting)

/-! ### Nodes -/

mutual

def recordNode (setting : Setting) : Node → Recorded (List Stmt)
  | n@(.function name parameters inner returns doc) => met n do
    let shown ← silent (parameterList parameters)
    let result ← silent (Build.typeCode? returns)
    silent (Build.storeParameterHints parameters)
    let stmts ← inDefinition .function returns (recordBody setting false inner)
    return [.define name shown result doc stmts]
  | n@(.graphNode name parameters inner returns _) => met n <|
    match setting.backend with
    | .script => do
      let shown ← silent (parameterList parameters)
      let result ← silent (Build.typeCode? returns)
      let stmts ← inDefinition .node returns (recordBody setting false inner)
      return [.define name shown result none stmts]
    | .graph => do
      silent (Build.storeParameterHints parameters)
      let stmts ← inDefinition .node returns (recordBody setting false inner)
      let unpacking := if parameters.isEmpty then [] else [Stmt.unpack (parameters.map (·.name))]
      let closing := if endsInTransfer inner then [] else [Stmt.retState]
      return [.defineNode name (unpacking ++ stmts ++ closing)]
  | n@(.assign name _ (.thread kind inner)) => met n <| met (.thread kind inner) do
    let saved ← silent (Build.fresh .savedMessages)
    return [.thread saved kind (← recordBody setting false inner) (some name)]
  | n@(.assign name _ (.timed inner prints)) => met n <| met (.timed inner prints) do
    let index ← silent Build.nextIndex
    return [.timed index (← recordBody setting false inner) prints (some name)]
  | n@(.assign _ _ (.expr _)) => met n (asking (node setting n))
  | n@(.assign _ _ (.parameter _)) => met n (asking (node setting n))
  | n@(.assign name hint value) => met n do
    silent (Build.storeHint? name hint)
    let type ← silent (Build.hintOf name)
    let _ ← expecting type (recordNode setting value)
    silent (Build.fail (.unsupported (value.tag ++ " used as a value") setting.backend))
  | n@(.ifElse condition thenBody elseBody) => met n do
    let condition ← asking (expr setting condition)
    let stmts ← recordBody setting false thenBody
    let (branches, otherwise) ← recordElseBranches setting elseBody
    return [.ifChain ((condition, stmts) :: branches) otherwise]
  | n@(.loop condition inner) => met n do
    let condition ← asking (expr setting condition)
    return [.loop condition (← recordBody setting false inner)]
  | n@(.select subject arms) => met n do
    let temp ← silent (Build.fresh .subject)
    let value ← asking (expr setting subject)
    let (choices, otherwise) ← recordChoices setting arms
    return [.select temp value choices otherwise]
  | n@(.thread kind inner) => met n do
    let saved ← silent (Build.fresh .savedMessages)
    return [.thread saved kind (← recordBody setting false inner) none]
  | n@(.timed inner prints) => met n do
    let index ← silent Build.nextIndex
    return [.timed index (← recordBody setting false inner) prints none]
  | n => met n (asking (node setting n))

def recordBody (setting : Setting) (afterLineEnd : Bool) : List Node → Recorded (List Stmt)
  | [] => return []
  | .newline :: rest => met .newline do
    let stmts ← recordBody setting true rest
    return (if afterLineEnd then .blank :: stmts else stmts)
  | first :: rest => do
    let (hoisted, stmts) ← collecting (recordNode setting first)
    return hoisted ++ stmts ++ (← recordBody setting false rest)

def recordElseBranches (setting : Setting) :
    Option (List Node) → Recorded (List (Code × List Stmt) × Option (List Stmt))
  | none => return ([], none)
  | some [n@(.ifElse condition thenBody elseBody)] => met n do
    let condition ← asking (expr setting condition)
    let stmts ← recordBody setting false thenBody
    let (branches, otherwise) ← recordElseBranches setting elseBody
    return ((condition, stmts) :: branches, otherwise)
  | some nodes => return ([], some (← recordBody setting false nodes))

def recordChoices (setting : Setting) :
    List Arm → Recorded (List Choice × Option (List Stmt))
  | [] => return ([], none)
  | .comment text :: rest => do
    let (others, otherwise) ← recordChoices setting rest
    return (.note ("#" ++ text) :: others, otherwise)
  | .arm none inner :: _ => do
    let (hoisted, stmts) ← collecting (recordNode setting inner)
    return ([], some (hoisted ++ stmts))
  | .arm (some value) inner :: rest => do
    let value ← asking (expr setting value)
    let (hoisted, stmts) ← collecting (recordNode setting inner)
    let (others, otherwise) ← recordChoices setting rest
    return (.case value (hoisted ++ stmts) :: others, otherwise)

end

/-- Whether a node has a form that an assignment takes. -/
def isAssignable : Node → Bool
  | .expr _ => true
  | .parameter _ => true
  | .thread .. => true
  | .timed .. => true
  | _ => false

theorem node_assign (h : isAssignable value = false) :
    node setting (.assign name hint value) = (do
      Build.storeHint? name hint
      let _ ← Build.expecting (← Build.hintOf name) (node setting value)
      Build.fail (.unsupported (value.tag ++ " used as a value") setting.backend)) := by
  cases value <;> first | rfl | exact nomatch h

theorem recordNode_assign (h : isAssignable value = false) :
    recordNode setting (.assign name hint value) = met (.assign name hint value) (do
      silent (Build.storeHint? name hint)
      let type ← silent (Build.hintOf name)
      let _ ← expecting type (recordNode setting value)
      silent (Build.fail (.unsupported (value.tag ++ " used as a value") setting.backend))) := by
  cases value <;> first | rfl | exact nomatch h

theorem recordBody_cons (h : first ≠ .newline) :
    recordBody setting afterLineEnd (first :: rest) = (do
      let (hoisted, stmts) ← collecting (recordNode setting first)
      return hoisted ++ stmts ++ (← recordBody setting false rest)) := by
  cases first with
  | newline => exact absurd rfl h
  | _ => rfl

/-! ### Programs -/

def recordStatement (setting : Setting) (n : Node) : Recorded (List Stmt) := do
  let (hoisted, stmts) ← collecting (recordNode setting n)
  return hoisted ++ stmts

def recordStepBody (setting : Setting) (n : Node) : Recorded (List Stmt) := do
  match plainValue? n with
  | some value => met n do
    let holder ← silent (Build.fresh .result)
    let (hoisted, code) ← collecting (asking (expr setting value))
    return hoisted ++ [.hold holder code, .retHeld holder]
  | none =>
    let stmts ← recordStatement setting n
    return stmts ++ (if endsInTransfer [n] then [] else [.retState])

def recordStepSection (setting : Setting) (n : Node) : Recorded Section := do
  let temp ← silent (Build.fresh .step)
  let stmts ← inScope .step none (recordStepBody setting n)
  return .step temp n.assignedNames stmts

def recordNodeSections (setting : Setting) (n : Node) : Recorded (List Section) := do
  match n with
  | .newline => return []
  | .function name parameters _ _ _ =>
    let stmts ← recordStatement setting n
    let holder ← silent (Build.fresh .result)
    return [.statements stmts, .functionNode name parameters.length holder]
  | .graphNode name _ _ _ visibility =>
    let stmts ← recordStatement setting n
    return .statements stmts :: (if isEntry visibility then [.entryPoint name] else [])
  | _ =>
    if staysOutside n then
      return [.statements (← recordStatement setting n)]
    else
      return [← recordStepSection setting n]

def recordListSections (setting : Setting) : List Node → Recorded (List Section)
  | [] => return []
  | n :: rest => return (← recordNodeSections setting n) ++ (← recordListSections setting rest)

def recordSections (setting : Setting) (program : Program) : Recorded (List Section) :=
  match setting.backend with
  | .script => return [.statements (← recordBody setting false program.nodes)]
  | .graph => recordListSections setting program.nodes

/-! ### A recorded run is the run itself -/

mutual

@[simp] theorem run_recordNode (setting : Setting) (n : Node) :
    (recordNode setting n).run = node setting n := by
  cases n with
  | function name parameters inner returns doc =>
    have hinner := run_recordBody setting false inner
    simp [recordNode, node, hinner]
  | graphNode name parameters inner returns visibility =>
    have hinner := run_recordBody setting false inner
    cases hbackend : setting.backend <;> simp [recordNode, node, hbackend, hinner]
  | assign name hint value =>
    have hvalue := run_recordNode setting value
    cases value with
    | thread _ inner | timed inner =>
      have hinner := run_recordBody setting false inner
      simp [recordNode, node, hinner]
    | expr | parameter => rfl
    | _ =>
      rw [recordNode_assign rfl, node_assign rfl]
      simp only [Recorded.run_met, Recorded.run_bind, Recorded.run_silent, Recorded.run_expecting,
        hvalue]
  | ifElse condition thenBody elseBody =>
    have hthen := run_recordBody setting false thenBody
    have helse := run_recordElseBranches setting elseBody
    simp [recordNode, node, hthen, helse]
  | loop condition inner =>
    have hinner := run_recordBody setting false inner
    simp [recordNode, node, hinner]
  | select subject arms =>
    have harms := run_recordChoices setting arms
    simp [recordNode, node, harms]
  | thread _ inner | timed inner =>
    have hinner := run_recordBody setting false inner
    simp [recordNode, node, hinner]
  | _ => rfl
termination_by structural n

@[simp] theorem run_recordBody (setting : Setting) (afterLineEnd : Bool) (inner : List Node) :
    (recordBody setting afterLineEnd inner).run = body setting afterLineEnd inner := by
  cases inner with
  | nil => rfl
  | cons first rest =>
    have hfirst := run_recordNode setting first
    have hlater := run_recordBody setting true rest
    have hrest := run_recordBody setting false rest
    by_cases h : first = .newline
    · subst h
      simp [recordBody, body_newline, hlater]
    · simp [recordBody_cons h, body_cons h, hfirst, hrest]
termination_by structural inner

@[simp] theorem run_recordElseBranches (setting : Setting) (other : Option (List Node)) :
    (recordElseBranches setting other).run = elseBranches setting other := by
  cases other with
  | none => rfl
  | some nodes =>
    -- Unless a single branching continues the chain, the nodes are a body.
    have hbody := run_recordBody setting false nodes
    cases nodes with
    | nil => rfl
    | cons n rest =>
      cases rest with
      | cons second others => cases n <;> simp [recordElseBranches, elseBranches, hbody]
      | nil =>
        cases n with
        | ifElse condition thenBody elseBody =>
          have hthen := run_recordBody setting false thenBody
          have helse := run_recordElseBranches setting elseBody
          simp [recordElseBranches, elseBranches, hthen, helse]
        | _ => simp [recordElseBranches, elseBranches, hbody]
termination_by structural other

@[simp] theorem run_recordChoices (setting : Setting) (arms : List Arm) :
    (recordChoices setting arms).run = choices setting arms := by
  cases arms with
  | nil => rfl
  | cons first rest =>
    have hrest := run_recordChoices setting rest
    cases first with
    | comment text => simp [recordChoices, choices, hrest]
    | arm value inner =>
      have hinner := run_recordNode setting inner
      cases value <;> simp [recordChoices, choices, hinner, hrest]
termination_by structural arms

end

theorem run_recordStatement (setting : Setting) (n : Node) :
    (recordStatement setting n).run = statement setting n := by
  simp [recordStatement, statement]

theorem run_recordStepBody (setting : Setting) (n : Node) :
    (recordStepBody setting n).run = stepBody setting n := by
  unfold recordStepBody stepBody
  cases plainValue? n <;> simp [run_recordStatement]

theorem run_recordNodeSections (setting : Setting) (n : Node) :
    (recordNodeSections setting n).run = nodeSections setting n := by
  have hstep : (recordStepSection setting n).run = stepSection setting n := by
    simp [recordStepSection, stepSection, run_recordStepBody]
  cases n with
  | newline => rfl
  | function | graphNode => simp [recordNodeSections, nodeSections, run_recordStatement]
  | _ =>
    simp only [recordNodeSections, nodeSections]
    split <;> simp [run_recordStatement, hstep]

theorem run_recordListSections (setting : Setting) (nodes : List Node) :
    (recordListSections setting nodes).run =
      List.flatten <$> nodes.mapM (nodeSections setting) := by
  induction nodes with
  | nil => rfl
  | cons n rest ih => simp [recordListSections, run_recordNodeSections, ih]

theorem run_recordSections (setting : Setting) (program : Program) :
    (recordSections setting program).run = sections setting program := by
  cases hbackend : setting.backend <;>
    simp [recordSections, sections, hbackend, run_recordListSections]

end AgentLang.Compile

/-- What happens while the program is compiled. -/
def AgentLang.Program.journal (program : Program) (backend : Backend) : List Compile.Event :=
  (Compile.recordSections (program.setting backend) program).log {}
