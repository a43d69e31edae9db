import AgentLang.Compile.Backend
import AgentLang.Json.Literal
import AgentLang.Names

/-!
# Registered backends

Backends are registered under names of their own, one backend for each name.
-/

namespace AgentLang

/-- What somebody wants to register. -/
inductive Candidate where
  | backend (backend : Backend)
  /-- Something that is no backend. -/
  | other (name : String)
  deriving DecidableEq, Repr

def Candidate.name : Candidate → String
  | .backend known => known.generatorName
  | .other word => word

inductive RegistryError where
  | taken (name : String) (candidate : Candidate)
  | notBackend (candidate : Candidate)
  | notFound (name : String) (available : List String)
  /-- There is nothing to describe under a name. -/
  | undescribed (name : String)
  deriving DecidableEq, Repr

def listText (names : List String) : String :=
  Json.literal (.array (names.map .string))

def RegistryError.message : RegistryError → String
  | .taken name candidate =>
    "Backend '" ++ name ++ "' is already registered. Cannot register " ++ candidate.name ++ "."
  | .notBackend candidate => "Backend class " ++ candidate.name ++ " must extend BaseGenerator"
  | .notFound name available =>
    "Backend '" ++ name ++ "' not found. Available backends: " ++ listText available
  | .undescribed name => "No backend is called " ++ name

structure Registry where
  entries : List (String × Backend) := []

namespace Registry

def find? (registry : Registry) (name : String) : Option Backend :=
  registry.entries.lookup name

/-- The names in ascending order. -/
def names (registry : Registry) : List String :=
  (Names.ofList (registry.entries.map (·.1))).list

def register (registry : Registry) (name : String) (candidate : Candidate) :
    Except RegistryError Registry :=
  if (registry.find? name).isSome then
    .error (.taken name candidate)
  else
    match candidate with
    | .backend backend => .ok ⟨registry.entries ++ [(name, backend)]⟩
    | .other _ => .error (.notBackend candidate)

def get (registry : Registry) (name : String) : Except RegistryError Backend :=
  match registry.find? name with
  | some backend => .ok backend
  | none => .error (.notFound name registry.names)

def summary (registry : Registry) (name : String) : Except RegistryError String :=
  match registry.find? name with
  | some backend => .ok backend.summary
  | none => .error (.undescribed name)

/-- The backends that are always there. -/
def standard : Registry := ⟨[("script", .script), ("graph", .graph)]⟩

end Registry
end AgentLang
