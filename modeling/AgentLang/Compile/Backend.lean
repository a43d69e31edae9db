/-!
# Backends

A program is laid out either as one script or around an execution graph.
-/

namespace AgentLang

inductive Backend where
  | script
  | graph
  deriving DecidableEq, Repr

namespace Backend

def name : Backend → String
  | .script => "script"
  | .graph => "graph"

def usesGraph : Backend → Bool
  | .script => false
  | .graph => true

/-- One line for the user. -/
def summary : Backend → String
  | .script => "Straight-line Python in program order."
  | .graph => "Python module built around an execution graph."

/-- The word for the part that lays out programs for a backend. -/
def generatorName : Backend → String
  | .script => "ScriptGenerator"
  | .graph => "GraphGenerator"

end Backend
end AgentLang
