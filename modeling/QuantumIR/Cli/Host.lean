import QuantumIR.Loading

/-!
Where a command finds its files. Commands run in any monad that can read and write them;
a `Folder` is the plainest one, with nothing but a list of files.
-/

namespace QuantumIR.Cli

/-- The files that a command can reach. -/
structure Host (m : Type → Type) where
  read : String → m (Except FileError String)
  write : String → String → m (Except FileError Unit)

/-- The files below a working directory, by their paths from there. -/
structure Folder where
  files : List (String × String)
  deriving DecidableEq, Repr, Inhabited

/-- Where a path leads. -/
inductive Place where
  /-- A file or a directory at or below the working directory. -/
  | inside (names : List String)
  /-- A directory above the working directory. None of what else is in there is known. -/
  | above
  /-- A file or a directory that is told by its names from the root on. -/
  | system (names : List String)
  deriving DecidableEq, Repr, Inhabited

namespace Folder

/-- The longest path and the longest name in it, in bytes. -/
def pathLimit : Nat := 4095

def nameLimit : Nat := 255

/-- The directories that every system has. -/
def systemDirectories : List (List String) :=
  [[], ["dev"], ["etc"], ["home"], ["tmp"], ["usr"], ["var"]]

/-- The file that is always empty. -/
def nullDevice : List String :=
  ["dev", "null"]

/-- Names as a path. -/
def join (names : List String) : String :=
  "/".intercalate names

/-- The contents of a file. -/
def contents? (folder : Folder) : Place → Option String
  | .inside names => folder.files.lookup (join names)
  | .above => none
  | .system names => if names = nullDevice then some "" else none

/-- Whether a place is a directory. -/
def isDirectory (folder : Folder) : Place → Bool
  | .inside names =>
    names.isEmpty || folder.files.any fun (path, _) => (join names ++ "/").isPrefixOf path
  | .above => true
  | .system names => names ∈ systemDirectories

/-- The place of a name in a directory, whether or not there is anything. A dot is the
directory itself and two dots are the one around it. -/
def child (name : String) : Place → Place
  | .inside names =>
    if name = "." then .inside names
    else if name = ".." then if names.isEmpty then .above else .inside names.dropLast
    else .inside (names ++ [name])
  | .above => .above
  | .system names =>
    if name = "." then .system names
    else if name = ".." then .system names.dropLast
    else .system (names ++ [name])

/-- Whether a name is one of those that stay among the directories. -/
def isDots (name : String) : Bool :=
  name = "." || name = ".."

/-- The place that a name leads to from another one, which has to be a directory. -/
def enter (folder : Folder) (place : Place) (name : String) : Except FileError Place := do
  if !folder.isDirectory place then throw .notDirectory
  if nameLimit < name.utf8ByteSize then throw .nameTooLong
  return child name place

/-- The place that a name leads to, where there has to be something. -/
def follow (folder : Folder) (place : Place) (name : String) : Except FileError Place := do
  let next ← folder.enter place name
  if place = .above && !isDots name then throw .notFound
  if (folder.contents? next).isNone && !folder.isDirectory next then throw .notFound
  return next

/-- The names of a path and the place that they start from. -/
def parts (path : String) : Except FileError (Place × List String) := do
  if path.isEmpty then throw .notFound
  if pathLimit < path.utf8ByteSize then throw .nameTooLong
  let names := (path.splitOn "/").filter fun name => !name.isEmpty
  return (if path.startsWith "/" then .system [] else .inside [], names)

/-- The text of a file. A slash at its end makes a path that of a directory. -/
def read (folder : Folder) (path : String) : Except FileError String := do
  let (start, names) ← parts path
  let place ← names.foldlM folder.follow start
  match folder.contents? place with
  | some text => if path.endsWith "/" then throw .notDirectory else return text
  | none => throw .isDirectory

/-- The folder after a file is written. Only files at or below the working directory are kept. -/
def write (folder : Folder) (path text : String) : Except FileError Folder := do
  let (start, names) ← parts path
  let parent ← names.dropLast.foldlM folder.follow start
  match names.getLast? with
  | none => throw .isDirectory
  | some name =>
    if !folder.isDirectory parent then throw .notDirectory
    if isDots name || path.endsWith "/" then throw .isDirectory
    let place ← folder.enter parent name
    if parent ≠ .above && folder.isDirectory place then throw .isDirectory
    match place with
    | .inside names => return ⟨(join names, text) :: folder.files⟩
    | _ => return folder

/-- A folder as the host of a command. -/
def host : Host (StateM Folder) where
  read path := return (← get).read path
  write path text := do
    match (← get).write path text with
    | .ok folder => set folder; return .ok ()
    | .error error => return .error error

end Folder

end QuantumIR.Cli
