import AgentLang.Files.Access
import AgentLang.Grammar.Source
import AgentLang.Text.Utf8

/-!
# Source files

Reads a program from a file.
-/

namespace AgentLang

inductive SourceError where
  | unreadable (path : Path) (fault : FileFault)
  | notUtf8 (path : Path) (error : Text.Utf8Error)
  | malformed (error : ParseError)

def SourceError.message : SourceError → String
  | .unreadable path fault => "Cannot read " ++ path.toText ++ ": " ++ fault.message
  | .notUtf8 path error =>
    "Cannot read " ++ path.toText ++ ": not valid UTF-8 (" ++ error.fault.message ++ " at byte "
      ++ Nat.repr error.offset ++ ")"
  | .malformed error => error.toText

/-- A program with the text that it was read from. -/
structure SourceFile where
  path : Path
  text : String
  program : Program

namespace SourceFile

/-- The program of a file with the given bytes. -/
def ofBytes (path : Path) (bytes : List UInt8) : Except SourceError SourceFile :=
  match Text.readText bytes with
  | .error error => .error (.notUtf8 path error)
  | .ok text =>
    match Program.parse text (some path) with
    | .error error => .error (.malformed error)
    | .ok program => .ok ⟨path, text, program⟩

def load {m : Type → Type} [Monad m] (files : FileAccess m) (path : Path) :
    m (Except SourceError SourceFile) := do
  match ← files.read path with
  | .error fault => return .error (.unreadable path fault)
  | .ok bytes => return ofBytes path bytes

end SourceFile
end AgentLang
