import Orchestration.Stack.Memo

namespace Orchestration

structure Overrides where
  properties : Option Value := none
  metadata : Option Value := none
  dependsOn : Option (List String) := none
  deletionPolicy : Option DeletionPolicy := none
  updatePolicy : Option Value := none
  description : Option String := none

namespace Overrides

def isEmpty (o : Overrides) : Bool :=
  o.properties.isNone && o.metadata.isNone && o.dependsOn.isNone && o.deletionPolicy.isNone &&
    o.updatePolicy.isNone && o.description.isNone

end Overrides

namespace ResourceDefinition

def isKept (d : ResourceDefinition) (o : Overrides) : Bool := d.isFrozen && o.isEmpty

def freezePart (stack : Stack) (given : Option Value) (s : Option Snippet) :
    Evaluation (Option Snippet) :=
  match given with
  | some v => return some (.ofValue v)
  | none => s.mapM fun s => .ofValue <$> stack.resolve s

def freeze (stack : Stack) (d : ResourceDefinition) (o : Overrides) :
    Evaluation ResourceDefinition := do
  if d.isKept o then return d
  let frozen : ResourceDefinition :=
    { d with
      properties := ← freezePart stack o.properties d.properties
      metadata := ← freezePart stack o.metadata d.metadata
      dependsOn := o.dependsOn.getD d.dependsOn
      updatePolicy := ← freezePart stack o.updatePolicy d.updatePolicy
      description := o.description.getD d.description
      externalId := ← freezePart stack none d.externalId
      condition := ← freezePart stack none d.condition
      isFrozen := true }
  return match o.deletionPolicy with
    | some policy => frozen.withDeletionPolicy policy
    | none => frozen

def reparsePart (stack : Stack) (s : Option Snippet) : Result (Option Snippet) :=
  s.mapM fun s => stack.template.snippet .ordinary stack.id s.canonical

/-- Read a definition again for a stack. A condition means something only in the stack that it was
read for, so it is dropped. -/
def reparse (stack : Stack) (d : ResourceDefinition) : Result ResourceDefinition := do
  let properties ← reparsePart stack d.properties
  let metadata ← reparsePart stack d.metadata
  let updatePolicy ← reparsePart stack d.updatePolicy
  let externalId ← reparsePart stack d.externalId
  return { d with properties, metadata, updatePolicy, externalId, condition := none, isFrozen := false }

end ResourceDefinition

end Orchestration
