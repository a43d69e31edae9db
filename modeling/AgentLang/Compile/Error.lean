import AgentLang.Compile.Backend
import AgentLang.Json.Literal

/-!
# Reasons to refuse a program

Every cause has its own constructor; the wording is in one place.
-/

namespace AgentLang

inductive CompileError where
  /-- A construct that a backend cannot lay out, or not in its place. -/
  | unsupported (construct : String) (backend : Backend)
  | unknownTool (name : String)
  | unknownSpecial (name : String)
  | notBuiltin (names : List String)
  /-- A type holds a number whose text is no number. -/
  | badNumber (type : String)
  /-- A module is imported as a whole under no name. -/
  | noImportedName
  /-- A prompt stands where nothing can be put ahead of it. -/
  | noOpenFrame
  /-- A configured value cannot be written. -/
  | unwritable (reason : Json.Unwritable)
  deriving DecidableEq, Repr

def CompileError.message : CompileError → String
  | .unsupported construct backend =>
    "Unsupported construct '" ++ construct ++ "' in " ++ backend.name ++ " backend"
  | .unknownTool name =>
    "Unknown tool '" ++ name ++ "'. Tools must be functions defined or imported in this file"
  | .unknownSpecial name =>
    "Unknown special variable '@" ++ name ++ "'. Expected one of: model, messages"
  | .notBuiltin names => "Not a builtin function: " ++ ", ".intercalate names
  | .badNumber type => "Not a type of numbers: " ++ type
  | .noImportedName => "A module is imported under no name"
  | .noOpenFrame => "A prompt stands outside of a statement"
  | .unwritable _ => "A configured value cannot be written"

end AgentLang
