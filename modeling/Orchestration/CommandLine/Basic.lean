import Orchestration.CommandLine.Folder
import Orchestration.CommandLine.Options
import Orchestration.Stack.Rendering

/-!
The command line, on any file system: it reads a template and what goes with it, makes a stack of
them, and prints what the command asks for.
-/

namespace Orchestration.CommandLine

inductive Failure
  | directory (path : String) (obstacle : Obstacle)
  | workDirectory (path : String) (obstacle : Obstacle)
  | templateUnread (path : String) (obstacle : Obstacle)
  | template (path : String) (error : Error)
  | fileUnread (key path : String) (obstacle : Obstacle)
  | unread (path : String) (obstacle : Obstacle)
  | unparsed (path : String)
  | parameters (path : String)
  | state (path : String) (error : Error)
  | render (error : RenderError)
  | stack (error : Error)

namespace Failure

def messages : Failure → List String
  | directory path obstacle =>
    [s!"Failed to resolve path for -C/--directory {path}", obstacle.message]
  | workDirectory path obstacle => [s!"Failed to set work directory to {path}", obstacle.message]
  | templateUnread path obstacle => [s!"Failed to read template {path}", obstacle.message]
  | template path error => [s!"Invalid template {path}", error.message]
  | fileUnread key path obstacle => [s!"Failed to read file {path} for {key}", obstacle.message]
  | unread path obstacle => [s!"Failed to read {path}", obstacle.message]
  | unparsed path => [s!"Failed to parse {path}", "the text is not JSON"]
  | parameters path => [s!"parameters in {path} must be a map"]
  | state path error => [s!"Invalid resource state {path}", error.message]
  | render ⟨some (.properties name), error⟩ =>
    [s!"Failed to resolve properties of {name}", error.message]
  | render ⟨some (.output name), error⟩ => [s!"Failed to resolve output {name}", error.message]
  | render ⟨none, error⟩ => [error.message]
  | stack error => [error.message]

end Failure

structure Outcome where
  exitCode : UInt8
  output : String
  errors : String

namespace Outcome

def ofFailure (f : Failure) : Outcome :=
  ⟨1, "", String.join (f.messages.map (· ++ "\n"))⟩

def ofMisuse (problem : Misuse) : Outcome := ⟨2, "", s!"error: {problem.message}\n"⟩

end Outcome

section

variable {m : Type → Type} [Monad m] (fs : FileSystem m)

def enter (path : String) : ExceptT Failure m Unit := do
  match ← fs.resolve path with
  | .error obstacle => throw (.directory path obstacle)
  | .ok full =>
    match ← fs.enter path with
    | .error obstacle => throw (.workDirectory full obstacle)
    | .ok () => pure ()

def read (path : String) (fail : Obstacle → Failure) : ExceptT Failure m String := do
  match ← fs.read path with
  | .ok content => return content
  | .error obstacle => throw (fail obstacle)

def document (path : String) : ExceptT Failure m Value := do
  let source ← read fs path (.unread path)
  match Document.read? source with
  | some v => return v
  | none => throw (.unparsed path)

def template (options : Options) : ExceptT Failure m Template := do
  let path := options.template
  let source ← read fs path (.templateUnread path)
  let t ← match Template.read source with
    | .ok t => pure t
    | .error e => throw (.template path e)
  let files ← options.files.mapM fun (key, path) => do
    return (key, ← read fs path (.fileUnread key path))
  return t.withFiles (Fields.ofList files)

/-- The parameters of an environment. A document that is no map has none. -/
def environment (path : String) : ExceptT Failure m (Fields Value) := do
  match ((← document fs path).map?).bind (·.get? "parameters") with
  | none | some .null => return []
  | some (.map values) => return values
  | some _ => throw (.parameters path)

/-- The parameters of all environments, later ones first, and those given as options on top. -/
def parameters (options : Options) : ExceptT Failure m (Fields Value) := do
  let values ← options.environments.foldlM (fun (values : Fields Value) path => do
    return values.extend (← environment fs path)) []
  return Fields.extend values (options.parameters.map fun (key, value) => (key, .text value))

def resources (options : Options) : ExceptT Failure m StaticResources := do
  match options.state with
  | none => return []
  | some path =>
    match StaticResources.ofValue (← document fs path) with
    | .ok resources => return resources
    | .error e => throw (.state path e)

def load (options : Options) : ExceptT Failure m Stack := do
  let t ← template fs options
  let values ← parameters fs options
  let live ← resources fs options
  match Stack.make ⟨"1"⟩ options.stackName t values live.toResources with
  | .ok stack => return stack
  | .error e => throw (.stack e)

end

def validate (stack : Stack) : Except Failure String := do
  match (stack.validate.run []).1 with
  | .ok () => return s!"{stack.template.version.text} is valid\n"
  | .error e => throw (.stack e)

def resolve (stack : Stack) : Except Failure String := do
  let rendered : Rendering Value := do
    let resources ← stack.renderResources
    let outputs ← stack.renderOutputs
    return .map [("resources", .map resources), ("outputs", .map outputs)]
  match (rendered.run []).1 with
  | .ok v => return v.prettyJson
  | .error e => throw (.render e)

def deps (stack : Stack) : Except Failure String := do
  match (stack.requirements.run []).1 with
  | .ok found =>
    let entry (r : Requirements) : Value :=
      .map [("requires", .texts r.requires), ("dep_attrs", .texts r.attributes)]
    return (Value.map (found.map fun (name, r) => (name, entry r))).prettyJson
  | .error e => throw (.stack e)

def Command.output : Command → Stack → Except Failure String
  | .validate => CommandLine.validate
  | .resolve => CommandLine.resolve
  | .deps => CommandLine.deps

def run {m : Type → Type} [Monad m] (fs : FileSystem m) (args : List String) : m Outcome := do
  match parse args with
  | .error problem => return .ofMisuse problem
  | .ok (command, options) =>
    let outcome ← ExceptT.run do
      options.directories.forM (enter fs)
      let stack ← load fs options
      (command.output stack : Except Failure String)
    match outcome with
    | .ok output => return ⟨0, output, ""⟩
    | .error f => return .ofFailure f

end Orchestration.CommandLine
