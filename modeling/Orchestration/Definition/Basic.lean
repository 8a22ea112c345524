import Orchestration.Error
import Orchestration.Snippet.Basic

/-!
Definitions of resources. A definition is known by what it is written as; its name and description
are left out of that.
-/

namespace Orchestration

inductive DeletionPolicy
  | delete
  | retain
  | snapshot
  deriving DecidableEq

namespace DeletionPolicy

def name : DeletionPolicy → String
  | delete => "Delete"
  | retain => "Retain"
  | snapshot => "Snapshot"

def ofText? (allowLowercase : Bool) : String → Option DeletionPolicy
  | "Delete" => some delete
  | "Retain" => some retain
  | "Snapshot" => some snapshot
  | "delete" => if allowLowercase then some delete else none
  | "retain" => if allowLowercase then some retain else none
  | "snapshot" => if allowLowercase then some snapshot else none
  | _ => none

end DeletionPolicy

structure ResourceDefinition where
  name : String
  type : String
  properties : Option Snippet := none
  metadata : Option Snippet := none
  dependsOn : List String := []
  givenPolicy : Option DeletionPolicy := none
  updatePolicy : Option Snippet := none
  description : String := ""
  externalId : Option Snippet := none
  condition : Option Snippet := none
  isFrozen : Bool := false

namespace ResourceDefinition

def withProperties (d : ResourceDefinition) (s : Snippet) : ResourceDefinition :=
  { d with properties := some s }

def withMetadata (d : ResourceDefinition) (s : Snippet) : ResourceDefinition :=
  { d with metadata := some s }

def withDependsOn (d : ResourceDefinition) (names : List String) : ResourceDefinition :=
  { d with dependsOn := names }

/-- External resources are always retained, so for them the policy is ignored. -/
def withDeletionPolicy (d : ResourceDefinition) (p : DeletionPolicy) : ResourceDefinition :=
  if d.externalId.isNone then { d with givenPolicy := some p } else d

def withUpdatePolicy (d : ResourceDefinition) (s : Snippet) : ResourceDefinition :=
  { d with updatePolicy := some s }

def withDescription (d : ResourceDefinition) (text : String) : ResourceDefinition :=
  { d with description := text }

def withExternalId (d : ResourceDefinition) (s : Snippet) : ResourceDefinition :=
  { d with externalId := some s, givenPolicy := some .retain }

def withCondition (d : ResourceDefinition) (s : Snippet) : ResourceDefinition :=
  { d with condition := some s }

def deletionPolicy (d : ResourceDefinition) : DeletionPolicy := d.givenPolicy.getD .delete

def canonicalSection (key : String) (s : Option Snippet) : Fields Value :=
  s.toList.map fun s => (key, s.canonical)

def hot (d : ResourceDefinition) : Value :=
  let dependsOn := if d.dependsOn.isEmpty then [] else [("depends_on", .texts d.dependsOn)]
  .map <| ("type", .text d.type) :: canonicalSection "properties" d.properties ++
    canonicalSection "metadata" d.metadata ++ dependsOn ++
    d.givenPolicy.toList.map (fun p => ("deletion_policy", .text p.name)) ++
    canonicalSection "update_policy" d.updatePolicy ++
    canonicalSection "external_id" d.externalId ++ canonicalSection "condition" d.condition

def equal (a b : ResourceDefinition) : Bool := a.hot.equal b.hot

end ResourceDefinition

structure Diff where
  old : ResourceDefinition
  new : ResourceDefinition

namespace Diff

def differs : Option Snippet → Option Snippet → Bool
  | none, none => false
  | some a, some b => !a.equal b
  | _, _ => true

def properties (d : Diff) : Bool := differs d.old.properties d.new.properties

def metadata (d : Diff) : Bool := differs d.old.metadata d.new.metadata

def updatePolicy (d : Diff) : Bool := differs d.old.updatePolicy d.new.updatePolicy

def isChanged (d : Diff) : Bool := d.properties || d.metadata || d.updatePolicy

end Diff

end Orchestration
