/-!
# Temporary names

Names that the emitted code introduces for itself. The number makes them distinct.
-/

namespace AgentLang.Target

/-- What a temporary name is introduced for. -/
inductive Purpose where
  | prompt
  | subject
  | savedMessages
  | timeStart
  | timeEnd
  | step
  | result
  deriving DecidableEq, Repr

def Purpose.word : Purpose → String
  | .prompt => "prompt"
  | .subject => "match"
  | .savedMessages => "saved_messages"
  | .timeStart => "time_start"
  | .timeEnd => "time_end"
  | .step => "step"
  | .result => "result"

/-- A name that the emitted code introduces for itself. -/
structure Temp where
  purpose : Purpose
  index : Nat
  deriving DecidableEq, Repr

/-- The name made of a word and a number. -/
def numbered (word : String) (index : Nat) : String :=
  "_" ++ word ++ "_" ++ Nat.repr index

def Temp.toText (t : Temp) : String := numbered t.purpose.word t.index

end AgentLang.Target
