import Orchestration.Error
import Orchestration.Value.Path

namespace Orchestration.Migration

def canonical (path : List String) : List String :=
  path.filter fun segment => (Text.unsigned? segment.toList).isNone

def pathText (path : List String) : String := ".".intercalate path

/-- Where the value that a rule writes comes from. A path may pick a part of it. -/
inductive Source
  | given (v : Value)
  | sibling (name : String) (pick : Option (List String))
  | top (path : List String) (pick : Option (List String))

/-- Something outside that knows values by other values, such as ids by names. -/
structure Client where
  find : (finder : String) → (entity : Option String) → Value → Result Value

structure Query where
  finder : String
  entity : Option String
  value : Value

structure Lookup where
  client : Client
  finder : String
  entity : Option String

inductive Action
  | add (source : Source)
  | replace (source : Source)
  | resolve (l : Lookup)
  | delete

namespace Action

def kind : Action → Kind
  | add _ => .add
  | replace _ => .replace
  | resolve _ => .resolve
  | delete => .delete

end Action

structure Rule where
  path : List String
  action : Action
  canonical_ne_nil : canonical path ≠ []

namespace Rule

def kind (r : Rule) : Kind := r.action.kind

def property (r : Rule) : String := (canonical r.path).head r.canonical_ne_nil

def way (r : Rule) : List String := (canonical r.path).dropLast

def field (r : Rule) : String := (canonical r.path).getLast r.canonical_ne_nil

def target (r : Rule) : String := pathText (canonical r.path)

def movedProperty? (r : Rule) : Option String :=
  match r.action with
  | .replace (.sibling name _) => if r.path.length = 1 then some name else none
  | .replace (.top [name] _) => some name
  | _ => none

/-- The top-level property that a rule takes a part out of, when it is not the rule's own. -/
def nestedSource? (r : Rule) : Option String :=
  match r.action with
  | .replace (.top (root :: _ :: _) _) => if root = r.property then none else some root
  | _ => none

def input? (r : Rule) : Option String :=
  match r.action with
  | .add (.sibling name _) | .replace (.sibling name _) =>
    if r.path.length = 1 then some name else none
  | .add (.top path _) | .replace (.top path _) => path.head?
  | _ => none

end Rule

structure Declaration where
  kind : Kind
  path : List String
  value : Option Value := none
  siblingName : Option String := none
  topPath : Option (List String) := none
  pick : Option (List String) := none
  client : Option Client := none
  finder : Option String := none
  entity : Option String := none

namespace Declaration

variable (d : Declaration)

def refuse {α : Type} (problem : RuleProblem) : Result α :=
  .error (.bare (.rule d.kind (pathText d.path) problem))

def sources : List Source :=
  d.value.toList.map .given ++ d.siblingName.toList.map (.sibling · d.pick) ++
    d.topPath.toList.map (.top · d.pick)

def checkPick {α : Type} (checked : α) : Result α :=
  if d.pick.isSome then d.refuse .customPath else pure checked

def checkAdd : Source → Result Action
  | .given (.list items) => pure (.add (.given (.list items)))
  | .given v => d.refuse (.notList v)
  | source => pure (.add source)

def checkReplace : Source → Result Action
  | .given v => d.checkPick (.replace (.given v))
  | source => pure (.replace source)

def checkResolve : Result Action :=
  match d.client, d.finder with
  | some client, some finder =>
    if d.sources.isEmpty then d.checkPick (.resolve ⟨client, finder, d.entity⟩)
    else d.refuse .unwantedSource
  | _, _ => d.refuse .noPlugin

def checkDelete : Result Action :=
  if d.sources.isEmpty then d.checkPick .delete else d.refuse .unwantedSource

def action : Result Action :=
  match d.kind, d.sources with
  | .add, [] | .replace, [] => d.refuse .noSource
  | .add, source :: _ => d.checkAdd source
  | .replace, source :: _ => d.checkReplace source
  | .resolve, _ => d.checkResolve
  | .delete, _ => d.checkDelete

def check : Result Rule :=
  if h : canonical d.path = [] then d.refuse .emptyPath
  else if 1 < d.sources.length then d.refuse .manySources
  else d.action.map fun action => ⟨d.path, action, h⟩

end Declaration

end Orchestration.Migration
