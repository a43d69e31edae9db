/-!
# Arguments of commands

Options have long names, which may carry their value behind an equals sign, and short names, which
may be written together. Two hyphens end the options.
-/

namespace AgentLang.CommandLine

structure Flag where
  /-- Under which name the option is asked for. -/
  key : String
  long : String
  short : Option Char
  takesValue : Bool

structure Arguments where
  /-- The options in the order in which they were given, with their values. -/
  options : List (String × String) := []
  plain : List String := []
  /-- The option whose value comes next. -/
  awaiting : Option String := none

namespace Arguments

def has (arguments : Arguments) (key : String) : Bool :=
  arguments.options.any (·.1 == key)

/-- The value of an option. Of several the last one counts. -/
def value? (arguments : Arguments) (key : String) : Option String :=
  arguments.options.reverse.lookup key

def record (key value : String) (arguments : Arguments) : Arguments :=
  { arguments with options := arguments.options ++ [(key, value)], awaiting := none }

/-- Options with short names, written together. -/
def shortOptions (flags : List Flag) : List Char → Arguments → Option Arguments
  | [], arguments => some arguments
  | c :: rest, arguments =>
    match flags.find? (·.short == some c) with
    | none => none
    | some flag =>
      if !flag.takesValue then shortOptions flags rest (arguments.record flag.key "")
      else if rest.isEmpty then some { arguments with awaiting := some flag.key }
      else some (arguments.record flag.key (String.ofList rest))

/-- One argument that starts with a hyphen. -/
def optionArgument (flags : List Flag) (chars : List Char) (arguments : Arguments) :
    Option Arguments :=
  let name := String.ofList (chars.takeWhile (· != '='))
  let attached := match chars.dropWhile (· != '=') with
    | [] => none
    | _ :: value => some (String.ofList value)
  match flags.find? (·.long == name) with
  | some flag =>
    match flag.takesValue, attached with
    | true, some value => some (arguments.record flag.key value)
    | true, none => some { arguments with awaiting := some flag.key }
    | false, none => some (arguments.record flag.key "")
    | false, some _ => none
  | none =>
    if ['-', '-'].isPrefixOf chars then none else shortOptions flags (chars.drop 1) arguments

/-- Reads arguments. Unless options may also follow, everything from the first plain argument on is
plain. -/
def readFrom (flags : List Flag) (mixed : Bool) (arguments : Arguments) :
    List String → Option Arguments
  | [] => if arguments.awaiting.isSome then none else some arguments
  | word :: rest =>
    match arguments.awaiting with
    | some key => readFrom flags mixed (arguments.record key word) rest
    | none =>
      if word = "--" then
        some { arguments with plain := arguments.plain ++ rest }
      else if ['-'].isPrefixOf word.toList && word != "-" then
        match optionArgument flags word.toList arguments with
        | some next => readFrom flags mixed next rest
        | none => none
      else if mixed then
        readFrom flags mixed { arguments with plain := arguments.plain ++ [word] } rest
      else
        some { arguments with plain := arguments.plain ++ word :: rest }

def read (flags : List Flag) (mixed : Bool) (words : List String) : Option Arguments :=
  readFrom flags mixed {} words

end Arguments
end AgentLang.CommandLine
