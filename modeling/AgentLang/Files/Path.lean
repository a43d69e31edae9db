import AgentLang.Text.Lines

/-!
# Paths

A path is a root and the names on the way. Empty names and `.` add nothing and are dropped, so that
two texts of one path give the same path; `..` is kept.
-/

namespace AgentLang

structure Path where
  /-- How many slashes open the path: none for a relative path, one, or exactly two. -/
  root : Nat
  names : List String
  deriving DecidableEq, Repr

namespace Path

def ofText (text : String) : Path :=
  let slashes := (text.toList.takeWhile (· == '/')).length
  let root := if slashes = 2 then 2 else min slashes 1
  ⟨root, ((Text.splitAt '/' text.toList).map String.ofList).filter fun name =>
    name != "" && name != "."⟩

def toText (path : Path) : String :=
  let body := "/".intercalate path.names
  if path.root = 0 then (if path.names.isEmpty then "." else body)
  else String.ofList (List.replicate path.root '/') ++ body

end Path
end AgentLang
