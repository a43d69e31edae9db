import AgentLang.CommandLine.Run

/-!
# The program

Runs a command on the files of the system.
-/

namespace AgentLang

/-- What an error of the system says about a file. -/
def faultOfError : IO.Error → FileFault
  | .noFileOrDirectory .. => .missing
  | .inappropriateType _ code _ =>
    if code = 21 ∨ code = 4294967275 then .isDirectory else .notDirectory
  | .invalidArgument _ code details => if code = 36 then .nameTooLong else .other details
  | error => .other (toString error)

def systemRead (path : Path) : IO (Except FileFault (List UInt8)) := do
  try
    return .ok (← IO.FS.readBinFile path.toText).toList
  catch error =>
    return .error (faultOfError error)

/-- The files of the system. -/
def systemAccess : FileAccess IO where
  workingDirectory := return .ofText (← IO.currentDir).toString
  read := systemRead
  write path text := do
    try
      IO.FS.writeFile path.toText text
      return .ok ()
    catch error =>
      return .error (faultOfError error)

end AgentLang

open AgentLang in
def main (words : List String) : IO UInt32 := do
  let outcome ← CommandLine.run systemAccess words
  match outcome with
  | .finished output errors =>
    IO.eprint errors
    IO.print output
  | .failed errors => IO.eprint errors
  | .misused => IO.eprint CommandLine.usage
  | .crashed _ => IO.eprintln "Internal error"
  return outcome.exitCode.toUInt32
