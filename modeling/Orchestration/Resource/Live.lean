import Orchestration.Error
import Orchestration.Value.Path

namespace Orchestration

structure Resource where
  name : String
  refId : Value
  available : Bool
  declares : String → Bool
  attributeValue : String → Result Value

namespace Resource

/-- An attribute, followed along a path; what does not exist there is null. Every kind of resource
follows paths in this way: none has one of its own. -/
def attributeAt (r : Resource) (name : String) (path : List Value) : Result Value :=
  (fun v => (v.select? path).getD .null) <$> r.attributeValue name

end Resource

structure Resources where
  get? : String → Option Resource
  byRefId? : Value → Option Resource

structure StaticResource where
  name : String
  refId : Value
  attributes : Fields Value
  available : Bool

namespace StaticResource

def toResource (r : StaticResource) : Resource where
  name := r.name
  refId := r.refId
  available := r.available
  declares := r.attributes.contains
  attributeValue name :=
    match r.attributes.get? name with
    | some v => pure v
    | none => .error (.bare (.templateAttribute r.name name))

end StaticResource

abbrev StaticResources := Fields StaticResource

namespace StaticResources

def add (rs : StaticResources) (r : StaticResource) : StaticResources := rs.insert r.name r

def toResources (rs : StaticResources) : Resources where
  get? name := (rs.get? name).map StaticResource.toResource
  byRefId? id := (rs.find? fun e => e.2.refId.equal id).map fun e => e.2.toResource

/-- A resource of a state document. Its name stands in for a missing reference. -/
def ofEntry (name : String) (entry : Value) : Result StaticResource := do
  let entry : Fields Value ← match entry with
    | .null => pure []
    | .map entry => pure entry
    | _ => fault (.stateEntry name)
  let attributes ← match entry.get? "attributes" with
    | none => pure []
    | some (.map attributes) => pure attributes
    | some _ => fault (.stateAttributes name)
  let isComplete := match entry.get? "complete" with
    | some (.bool complete) => complete
    | _ => true
  return ⟨name, (entry.get? "ref_id").getD (.text name), attributes, isComplete⟩

def ofValue : Value → Result StaticResources
  | .null => pure []
  | .map entries => entries.foldlM (fun rs (name, entry) => rs.add <$> ofEntry name entry) []
  | _ => fault .state

end StaticResources

end Orchestration
