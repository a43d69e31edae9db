import AgentLang.Target.Temp

/-!
# Where compilation stands

A context counts the temporary names, and knows which scopes are open, which types are expected,
what waits to be put ahead of the current statement and which tools wait for the next prompt. What
is opened is closed in the opposite order.
-/

namespace AgentLang

/-- An open scope with the type that it returns. -/
structure Frame (σ τ : Type) where
  scope : σ
  returns : Option τ
  deriving DecidableEq, Repr

structure Context (σ τ ι : Type) where
  /-- The scope around all others. -/
  outermost : σ
  counter : Nat := 0
  /-- The open scopes, the innermost first. -/
  frames : List (Frame σ τ) := []
  /-- The expected types, the innermost first. -/
  expectations : List (Option τ) := []
  /-- What waits to be put ahead of the open statements, the innermost first. -/
  hoisted : List (List ι) := []
  pendingTools : List String := []

namespace Context

variable {σ τ ι : Type}

/-- The scopes from the outermost to the innermost. -/
def scopes (c : Context σ τ ι) : List σ :=
  c.outermost :: (c.frames.map Frame.scope).reverse

def scope (c : Context σ τ ι) : σ :=
  (c.frames.head?.map Frame.scope).getD c.outermost

/-- The types that the open scopes return, from the outermost to the innermost. -/
def returnTypes (c : Context σ τ ι) : List (Option τ) :=
  (c.frames.map Frame.returns).reverse

def returnType (c : Context σ τ ι) : Option τ :=
  c.frames.head?.bind Frame.returns

def expectedType (c : Context σ τ ι) : Option τ :=
  c.expectations.head?.join

def nextIndex (c : Context σ τ ι) : Nat × Context σ τ ι :=
  (c.counter + 1, { c with counter := c.counter + 1 })

def enter (frame : Frame σ τ) (c : Context σ τ ι) : Context σ τ ι :=
  { c with frames := frame :: c.frames }

def exit (c : Context σ τ ι) : Context σ τ ι :=
  { c with frames := c.frames.tail }

def expect (type : Option τ) (c : Context σ τ ι) : Context σ τ ι :=
  { c with expectations := type :: c.expectations }

def unexpect (c : Context σ τ ι) : Context σ τ ι :=
  { c with expectations := c.expectations.tail }

def withTools (tools : List String) (c : Context σ τ ι) : Context σ τ ι :=
  { c with pendingTools := tools }

def addTool (tool : String) (c : Context σ τ ι) : Context σ τ ι :=
  c.withTools (c.pendingTools ++ [tool])

def takeTools (c : Context σ τ ι) : List String × Context σ τ ι :=
  (c.pendingTools, c.withTools [])

def pushHoist (c : Context σ τ ι) : Context σ τ ι :=
  { c with hoisted := [] :: c.hoisted }

/-- What waits for the innermost statement, which is closed. -/
def popHoist? (c : Context σ τ ι) : Option (List ι × Context σ τ ι) :=
  match c.hoisted with
  | [] => none
  | items :: rest => some (items, { c with hoisted := rest })

/-- Puts items ahead of the innermost statement, behind those that wait already. -/
def hoist? (items : List ι) (c : Context σ τ ι) : Option (Context σ τ ι) :=
  match c.hoisted with
  | [] => none
  | waiting :: rest => some { c with hoisted := (waiting ++ items) :: rest }

end Context

/-! ### Runs of operations -/

/-- What closing the innermost open thing does. -/
inductive Closing where
  | scope
  | expectation
  /-- The tools that were pending when a tool scope was opened come back. -/
  | tools (saved : List String)
  deriving DecidableEq, Repr

/-- A context with the things that are open. -/
structure ContextRun (σ τ ι : Type) where
  context : Context σ τ ι
  opened : List Closing := []

inductive ContextOp (σ τ ι : Type) where
  | enter (scope : σ) (returns : Option τ)
  | expecting (type : Option τ)
  | toolScope
  | leave
  | pushHoist
  | popHoist
  | hoist (items : List ι)
  | nextIndex
  | freshName (word : String)
  | addTool (tool : String)
  | takeTools

/-- What an operation returns. -/
inductive ContextReply (ι : Type) where
  | nothing
  | index (value : Nat)
  | name (value : String)
  | items (values : List ι)
  | tools (names : List String)

namespace ContextRun

variable {σ τ ι : Type}

/-- Closes what was opened last. -/
def close? (run : ContextRun σ τ ι) : Option (ContextRun σ τ ι) :=
  match run.opened with
  | [] => none
  | .scope :: rest => some ⟨run.context.exit, rest⟩
  | .expectation :: rest => some ⟨run.context.unexpect, rest⟩
  | .tools saved :: rest => some ⟨run.context.withTools saved, rest⟩

/-- One operation. There is no result where something has to be open and nothing is. -/
def step? (run : ContextRun σ τ ι) :
    ContextOp σ τ ι → Option (ContextReply ι × ContextRun σ τ ι)
  | .enter scope returns =>
    some (.nothing, ⟨run.context.enter ⟨scope, returns⟩, .scope :: run.opened⟩)
  | .expecting type => some (.nothing, ⟨run.context.expect type, .expectation :: run.opened⟩)
  | .toolScope =>
    some (.nothing, ⟨run.context.withTools [], .tools run.context.pendingTools :: run.opened⟩)
  | .leave => run.close?.map fun closed => (.nothing, closed)
  | .pushHoist => some (.nothing, { run with context := run.context.pushHoist })
  | .popHoist =>
    run.context.popHoist?.map fun (items, context) =>
      (.items items, { run with context := context })
  | .hoist items =>
    (run.context.hoist? items).map fun context => (.nothing, { run with context := context })
  | .nextIndex =>
    let (index, context) := run.context.nextIndex
    some (.index index, { run with context := context })
  | .freshName word =>
    let (index, context) := run.context.nextIndex
    some (.name (Target.numbered word index), { run with context := context })
  | .addTool tool => some (.nothing, { run with context := run.context.addTool tool })
  | .takeTools =>
    let (tools, context) := run.context.takeTools
    some (.tools tools, { run with context := context })

end ContextRun
end AgentLang
