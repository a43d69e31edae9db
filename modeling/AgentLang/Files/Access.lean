import AgentLang.Files.Path

/-!
# Access to files

What a program needs of a file system, in any monad, so that it runs on real files and on a tree of
files in memory alike.
-/

namespace AgentLang

inductive FileFault where
  | missing
  | isDirectory
  | notDirectory
  | nameTooLong
  /-- The path holds a character that no name can hold. -/
  | unnameable
  /-- Some other reason, in the words of the system. -/
  | other (reason : String)
  deriving DecidableEq, Repr

def FileFault.message : FileFault → String
  | .missing => "No such file or directory"
  | .isDirectory => "Is a directory"
  | .notDirectory => "Not a directory"
  | .nameTooLong => "File name too long"
  | .unnameable => "embedded null byte"
  | .other reason => reason

structure FileAccess (m : Type → Type) where
  /-- The directory that relative paths start from. -/
  workingDirectory : m Path
  read : Path → m (Except FileFault (List UInt8))
  write : Path → String → m (Except FileFault Unit)

/-- Whether there is a file at the path. What keeps the system from looking is an error. -/
def FileAccess.isFile {m : Type → Type} [Monad m] (files : FileAccess m) (path : Path) :
    m (Except FileFault Bool) := do
  match ← files.read path with
  | .ok _ => return .ok true
  | .error .nameTooLong => return .error .nameTooLong
  | .error (.other reason) => return .error (.other reason)
  | .error _ => return .ok false

namespace Path

/-- Whether the path can name anything. -/
def isNameable (path : Path) : Bool :=
  path.names.all fun name => !name.toList.contains '\x00'

/-- The last name, empty where there is none. -/
def lastName (path : Path) : String :=
  path.names.getLast?.getD ""

/-- The path without its last name. -/
def parent (path : Path) : Path :=
  { path with names := path.names.dropLast }

/-- The last name without its ending. A point at either end of the name makes no ending. -/
def stem (path : Path) : String :=
  let reversed := path.lastName.toList.reverse
  let ending := reversed.takeWhile (· != '.')
  match reversed.dropWhile (· != '.') with
  | _ :: c :: before =>
    if ending.isEmpty then path.lastName else String.ofList (c :: before).reverse
  | _ => path.lastName

def child (path : Path) (name : String) : Path :=
  { path with names := path.names ++ [name] }

/-- One name more on the way, where `..` goes back. The way is kept from its end. -/
def follow (way : List String) (name : String) : List String :=
  if name = ".." then way.tail else name :: way

/-- The path from the root of the file system, if relative paths start from the given one. -/
def absolute (base path : Path) : Path :=
  let whole := if path.root = 0 then ⟨base.root, base.names ++ path.names⟩ else path
  { whole with names := (whole.names.foldl follow []).reverse }

end Path
end AgentLang
