import Orchestration.Definition.Dependency
import Orchestration.Stack.Memo

namespace Orchestration

namespace Stack

variable (stack : Stack)

def checkOffered (c : Call) : Result Unit :=
  match c.fn with
  | .unavailable version reason => .error (.bare (.unsupportedFunction c.name version reason))
  | _ => pure ()

def checkParameter : Snippet → Result Unit
  | .text name | .list (.text name :: _) =>
    if stack.parameters.isDeclared name then pure () else .error (.bare (.unknownParameter name))
  | _ => pure ()

def checkResource (c : Call) (name : String) : Result Unit :=
  if stack.template.hasResource name then pure ()
  else .error (.bare (.templateReference name c.name))

def checkAttribute (name field : String) : Result Unit :=
  match stack.resources.get? name with
  | some r => if r.declares field then pure () else .error (.bare (.templateAttribute name field))
  | none => pure ()

def checkFile (c : Call) (path : String) : Result Unit :=
  if (stack.template.file? path).isSome then pure ()
  else fault (.call c.name (.noFile path))

def checkCall (c : Call) (args : Snippet) : Result Unit := do
  match c.fn with
  | .parameter => stack.checkParameter args
  | .file => stack.checkFile c (args.text?.getD "")
  | _ =>
    if let some name := Snippet.target? c.fn args then stack.checkResource c name
    if let some (name, field) := Snippet.targetAttribute? c.fn args then
      stack.checkAttribute name field

end Stack

namespace Snippet

section

variable (stack : Stack)

mutual

def validate : Snippet → Breadcrumb → Result Unit
  | .scalar _, _ => pure ()
  | .list items, path => validateItems items path 0
  | .map fields, path => validateFields fields path
  | .call c args, path => do
    stack.checkOwn c
    located (path.key c.name) do
      Stack.checkOffered c
      validate args []
      stack.checkCall c args

def validateItems : List Snippet → Breadcrumb → Nat → Result Unit
  | [], _, _ => pure ()
  | s :: rest, path, i => do
    validate s (path.index i)
    validateItems rest path (i + 1)

def validateFields : List (String × Snippet) → Breadcrumb → Result Unit
  | [], _ => pure ()
  | (k, s) :: rest, path => do
    validate s (path.key k)
    validateFields rest path

end

end

end Snippet

namespace ResourceDefinition

def validatePart (stack : Stack) (path : Breadcrumb) (key : String) (s : Option Snippet) :
    Result Unit :=
  match s with
  | some s => s.validate stack (path.key key)
  | none => pure ()

def validate (stack : Stack) (d : ResourceDefinition) : Result Unit := do
  let path := (Breadcrumb.root "resources").key d.name
  validatePart stack path "properties" d.properties
  validatePart stack path "metadata" d.metadata
  validatePart stack path "update_policy" d.updatePolicy
  validatePart stack path "external_id" d.externalId
  if let some name := d.dependsOn.find? (!stack.template.hasResource ·) then
    throw (.bare (.templateReference name d.name))
  if let some (.text name) := d.condition then
    unless stack.conditions.contains name do located path (fault (.condition name))
  discard (located path d.requires)

/-- The live resources that a definition requires. Resources of the template that are not live are
passed over. -/
def dependencies (stack : Stack) (d : ResourceDefinition) : Result (List Resource) := do
  let found ← (← d.requires).mapM fun name =>
    match stack.resources.get? name with
    | some r => pure (some r)
    | none =>
      if stack.template.hasResource name then pure none
      else .error (.bare (.templateReference name d.name))
  return found.filterMap id

end ResourceDefinition

namespace OutputDefinition

def requires (o : OutputDefinition) : List String :=
  sortedNames ((o.value.dependencies s!"outputs.{o.name}").map (·.resource))

def validate (stack : Stack) (o : OutputDefinition) : Result Unit :=
  o.value.validate stack (((Breadcrumb.root "outputs").key o.name).key "value")

end OutputDefinition

namespace Stack

variable (stack : Stack)

/-- A condition is a truth value, the name of another one, or a call. -/
def checkDefinition (name : String) (definition : Snippet) : Result Unit := do
  let path := (Breadcrumb.root "conditions").key name
  let isCondition := match definition with
    | .bool _ | .call _ _ => true
    | .text other => stack.conditions.contains other
    | _ => false
  unless isCondition do throw (.located path (.conditionResult name))
  definition.validate stack path

/-- Evaluate a condition; that a parameter has no value yet is no mistake. -/
def checkTruth (name : String) : Evaluation Unit :=
  ExceptT.mk do
    match ← (stack.evaluate name).run with
    | .ok _ | .error (.bare (.parameterMissing _)) => return .ok ()
    | .error e => return .error (e.atPath ((Breadcrumb.root "conditions").key name))

def validateConditions : Evaluation Unit := do
  stack.conditions.forM fun (name, definition) => stack.checkDefinition name definition
  stack.conditions.keys.forM stack.checkTruth

def validate : Evaluation Unit := do
  stack.validateConditions
  let definitions ← stack.template.resourceDefinitions stack.id
  definitions.forM fun (_, d) => d.validate stack
  let outputs ← stack.template.outputs stack.id
  outputs.forM fun (_, o) => o.validate stack

end Stack

end Orchestration
