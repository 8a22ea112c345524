import Orchestration.CommandLine.Basic

namespace Orchestration.CommandLine

/-- Some calls of the system give their error codes as negative numbers. -/
def Obstacle.ofCode (code : UInt32) (details : String) : Obstacle :=
  let code := if Nat.pow 2 31 ≤ code.toNat then Nat.pow 2 32 - code.toNat else code.toNat
  if code = 2 then .missing
  else if code = 20 then .notFolder
  else if code = 21 then .isFolder
  else .other s!"{details.capitalize} (os error {code})"

def Obstacle.ofError : IO.Error → Obstacle
  | .noFileOrDirectory _ code details | .inappropriateType _ code details |
    .permissionDenied _ code details | .invalidArgument _ code details |
    .resourceExhausted _ code details | .otherError code details => .ofCode code details
  | e => .other (toString e)

abbrev Running := StateT String IO

def place (path : String) : Running String := do
  let folder ← get
  return if folder.isEmpty || path.isEmpty || path.startsWith "/" then path else s!"{folder}/{path}"

def readText (path : String) : IO (Except Obstacle String) := do
  try
    match String.fromUTF8? (← IO.FS.readBinFile path) with
    | some s => return .ok s
    | none => return .error .notText
  catch e => return .error (.ofError e)

def machine : FileSystem Running where
  read path := do readText (← place path)
  resolve path := do
    let path ← place path
    match ← readText path with
    | .ok _ | .error .isFolder | .error .notText => return .ok (← IO.FS.realPath path).toString
    | .error obstacle => return .error obstacle
  enter path := do
    let path ← place path
    match ← readText path with
    | .error .isFolder => set path; return .ok ()
    | .ok _ | .error .notText => return .error .notFolder
    | .error obstacle => return .error obstacle

end Orchestration.CommandLine

def main (args : List String) : IO UInt32 := do
  let (outcome, _) ← (Orchestration.CommandLine.run Orchestration.CommandLine.machine args).run ""
  IO.print outcome.output
  IO.eprint outcome.errors
  return outcome.exitCode.toUInt32
