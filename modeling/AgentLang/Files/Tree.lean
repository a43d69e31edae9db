import AgentLang.Files.Access

/-!
# Files in memory

A tree of directories, as a file system that a program can be run on.
-/

namespace AgentLang

inductive FileTree where
  | file (content : List UInt8)
  | directory (entries : List (String × FileTree))
  deriving Inhabited

namespace FileTree

def longestName : Nat := 255

def longestPath : Nat := 4095

/-- Follows names from a place. `trail` holds the names behind, the last first, each with the
directory that it was found in. Above the top there is the top again. -/
def walk (trail : List (String × FileTree)) (here : FileTree) :
    List String → Except FileFault (List String × FileTree)
  | [] => .ok ((trail.map (·.1)).reverse, here)
  | name :: rest =>
    match here with
    | .file _ => .error .notDirectory
    | .directory entries =>
      if name = ".." then
        match trail with
        | [] => walk [] here rest
        | (_, above) :: trail => walk trail above rest
      else if longestName < name.utf8ByteSize then .error .nameTooLong
      else
        match entries.lookup name with
        | none => .error .missing
        | some found => walk ((name, here) :: trail) found rest

/-- Sets an entry of a directory. A new one goes to the end. -/
def setEntry (name : String) (entry : FileTree) :
    List (String × FileTree) → List (String × FileTree)
  | [] => [(name, entry)]
  | (known, old) :: rest =>
    if known = name then (name, entry) :: rest else (known, old) :: setEntry name entry rest

/-- Puts an entry at a place, and directories on the way to it where there are none. -/
def put (entry : FileTree) : List String → FileTree → FileTree
  | [], _ => entry
  | name :: rest, .directory entries =>
    .directory (setEntry name (put entry rest ((entries.lookup name).getD (.directory []))) entries)
  | name :: rest, .file _ => .directory [(name, put entry rest (.directory []))]

/-- Makes a directory unless there is one. -/
def makeDirectory (names : List String) (tree : FileTree) : FileTree :=
  match walk [] tree names with
  | .ok _ => tree
  | .error _ => put (.directory []) names tree

mutual

/-- All files with their names from the top. -/
def files : FileTree → List (List String × List UInt8)
  | .file content => [([], content)]
  | .directory entries => filesOf entries

def filesOf : List (String × FileTree) → List (List String × List UInt8)
  | [] => []
  | (name, entry) :: rest =>
    entry.files.map (fun (names, content) => (name :: names, content)) ++ filesOf rest

end

end FileTree

/-! ### Access -/

/-- A file system in memory. -/
structure MemoryFiles where
  /-- The directory that relative paths start from. -/
  here : Path
  /-- Everything, from the root on. -/
  tree : FileTree

namespace MemoryFiles

/-- A file system that holds a tree at a path. -/
def ofTree (here : Path) (tree : FileTree) : MemoryFiles :=
  ⟨here, FileTree.put tree here.names (.directory [])⟩

/-- The names from the root on. -/
def names (files : MemoryFiles) (path : Path) : List String :=
  if path.root = 0 then files.here.names ++ path.names else path.names

/-- Whether the system takes the text of the path. -/
def check (path : Path) : Except FileFault Unit :=
  if !path.isNameable then .error .unnameable
  else if FileTree.longestPath < path.toText.utf8ByteSize then .error .nameTooLong
  else .ok ()

def find (files : MemoryFiles) (path : Path) : Except FileFault (List String × FileTree) := do
  check path
  FileTree.walk [] files.tree (files.names path)

def read (files : MemoryFiles) (path : Path) : Except FileFault (List UInt8) := do
  match ← files.find path with
  | (_, .file content) => return content
  | (_, .directory _) => throw .isDirectory

def write (files : MemoryFiles) (path : Path) (content : List UInt8) :
    Except FileFault MemoryFiles := do
  check path
  if path.names.isEmpty || path.lastName = ".." then
    let _ ← files.find path
    throw .isDirectory
  match ← files.find path.parent with
  | (_, .file _) => throw .notDirectory
  | (names, .directory entries) =>
    match entries.lookup path.lastName with
    | some (.directory _) => throw .isDirectory
    | _ =>
      if FileTree.longestName < path.lastName.utf8ByteSize then throw .nameTooLong
      return { files with tree := .put (.file content) (names ++ [path.lastName]) files.tree }

/-- Files in memory as the files of a program. -/
def access : FileAccess (StateM MemoryFiles) where
  workingDirectory := return (← get).here
  read path := return (← get).read path
  write path text := fun files =>
    match files.write path text.toUTF8.toList with
    | .ok next => (.ok (), next)
    | .error fault => (.error fault, files)

end MemoryFiles
end AgentLang
