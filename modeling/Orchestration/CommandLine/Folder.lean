import Orchestration.Fields
import Orchestration.Text.Pieces

namespace Orchestration.CommandLine

inductive Obstacle
  | missing
  | notFolder
  | isFolder
  | notText
  | other (reason : String)

namespace Obstacle

def message : Obstacle → String
  | missing => "No such file or directory (os error 2)"
  | notFolder => "Not a directory (os error 20)"
  | isFolder => "Is a directory (os error 21)"
  | notText => "stream did not contain valid UTF-8"
  | other reason => reason

end Obstacle

structure FileSystem (m : Type → Type) where
  read : (path : String) → m (Except Obstacle String)
  resolve : (path : String) → m (Except Obstacle String)
  enter : (path : String) → m (Except Obstacle Unit)

/-- A file in memory; its path is given by the names on the way from the root. -/
structure File where
  path : List String
  content : String

structure Folder where
  files : List File
  current : List String

namespace Folder

def segments (path : String) : List String :=
  (Text.pieces ['/'] path.toList).map String.ofList

def ofFiles (files : Fields String) : Folder :=
  ⟨files.map fun (path, content) => ⟨segments path, content⟩, []⟩

variable (f : Folder)

def file? (path : List String) : Option File := f.files.find? (·.path = path)

def isFolder (path : List String) : Bool :=
  path.isEmpty || f.files.any fun file => path.isPrefixOf file.path && path ≠ file.path

/-- Go on from a place, which must be a folder unless the way ends there. -/
def walk : (place way : List String) → Except Obstacle (List String)
  | place, [] =>
    if f.isFolder place || (f.file? place).isSome then pure place else throw .missing
  | place, segment :: way =>
    if f.isFolder place then
      if segment = "" || segment = "." then walk place way
      else if segment = ".." then walk place.dropLast way
      else walk (place ++ [segment]) way
    else throw (if (f.file? place).isSome then .notFolder else .missing)

def resolve (path : String) : Except Obstacle (List String) :=
  if path.isEmpty then throw .missing
  else f.walk (if path.startsWith "/" then [] else f.current) (segments path)

def read (path : String) : Except Obstacle String := do
  match f.file? (← f.resolve path) with
  | some file => return file.content
  | none => throw .isFolder

def enter (path : String) : Except Obstacle Folder := do
  let place ← f.resolve path
  if f.isFolder place then return { f with current := place } else throw .notFolder

def fileSystem : FileSystem (StateM Folder) where
  read path := do return (← get).read path
  resolve path := do return ("/" ++ "/".intercalate ·) <$> (← get).resolve path
  enter path := do
    match (← get).enter path with
    | .ok f => set f; return .ok ()
    | .error obstacle => return .error obstacle

end Folder

end Orchestration.CommandLine
