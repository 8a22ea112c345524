import Orchestration.Definition.Basic
import Orchestration.Snippet.Parser

namespace Orchestration

structure OutputDefinition where
  name : String
  value : Snippet
  description : Option String
  condition : Option Snippet

structure ResourceKeys where
  type : String
  properties : String
  metadata : String
  dependsOn : String
  deletionPolicy : String
  updatePolicy : String
  description : String
  externalId : Option String
  condition : Option String

namespace ResourceKeys

def ofVersion (version : Version) : ResourceKeys :=
  if version.isHot then
    let since (key : String) := if version.supportsConditions then some key else none
    ⟨"type", "properties", "metadata", "depends_on", "deletion_policy", "update_policy",
      "description", since "external_id", since "condition"⟩
  else
    ⟨"Type", "Properties", "Metadata", "DependsOn", "DeletionPolicy", "UpdatePolicy",
      "Description", none, some "Condition"⟩

def all (keys : ResourceKeys) : List String :=
  [keys.type, keys.properties, keys.metadata, keys.dependsOn, keys.deletionPolicy,
    keys.updatePolicy, keys.description] ++ keys.externalId.toList ++ keys.condition.toList

end ResourceKeys

structure OutputKeys where
  value : String
  description : String
  condition : Option String

namespace OutputKeys

def ofVersion (version : Version) : OutputKeys :=
  if version.isHot then
    ⟨"value", "description", if version.supportsConditions then some "condition" else none⟩
  else ⟨"Value", "Description", some "Condition"⟩

def all (keys : OutputKeys) : List String :=
  [keys.value, keys.description] ++ keys.condition.toList

end OutputKeys

namespace Template

variable (t : Template) (stack : StackId)

def conditions : Result (Fields Snippet) :=
  (t.entries .conditions).mapM fun (name, definition) => do
    let path := (Breadcrumb.root "conditions").key name
    return (name, ← located path (t.snippet .forConditions stack definition))

/-- The condition of a resource or an output: a truth value, the name of a condition, or in newer
versions a condition function. -/
def conditionReference (path : Breadcrumb) : Value → Result Snippet
  | .bool b => pure (.bool b)
  | .text name =>
    if t.hasCondition name then pure (.text name) else located path (fault (.condition name))
  | .map fields =>
    if t.version.isHotSince .v20170901 then located path do
      let s ← t.snippet .forConditions stack (.map fields)
      if s.isCall then return s else fault .conditionFunction
    else located path (fault (.condition (Value.map fields).shortText))
  | other => located path (fault (.condition other.shortText))

def given? (raw : Fields Value) (key : Option String) : Option (String × Value) :=
  key.bind fun key => ((raw.get? key).filter (!·.isNull)).map (key, ·)

def condition (raw : Fields Value) (key : Option String) (path : Breadcrumb) :
    Result (Option Snippet) :=
  (given? raw key).mapM fun (key, v) => t.conditionReference stack (path.key key) v

def part (raw : Fields Value) (path : Breadcrumb) (mustBeMap : Bool) (key : Option String) :
    Result (Option Snippet) :=
  (given? raw key).mapM fun (key, v) => located (path.key key) do
    let s ← t.snippet .ordinary stack v
    if mustBeMap && s.map?.isNone && !s.isCall then
      fault (.resource (.sectionMap key s.typeName))
    return s

def resourceType (name key : String) (raw : Fields Value) : Result String :=
  match raw.get? key with
  | some (.text type) => if type.isEmpty then fault (.resource (.typeText name key)) else pure type
  | some _ => fault (.resource (.typeText name key))
  | none => fault (.resource (.typeMissing name key))

def dependsOn (key : String) : Option Value → Result (List String)
  | none | some .null => pure []
  | some (.text name) => pure [name]
  | some (.list names) =>
    match names.mapM Value.text? with
    | some names => pure names
    | none => fault (.resource (.dependencyTexts key))
  | some _ => fault (.resource (.dependencies key))

def deletionPolicy : Option Value → Result (Option DeletionPolicy)
  | none | some .null => pure none
  | some (.text written) =>
    match DeletionPolicy.ofText? (t.version.isHotSince .v20161014) written with
    | some policy => pure (some policy)
    | none => fault (.resource (.deletionPolicy written))
  | some other => fault (.resource (.deletionPolicy other.shortText))

def resourceDescription (key : String) : Option Value → Result String
  | none | some .null => pure ""
  | some (.text description) => pure description
  | some _ => fault (.resource (.description key))

def resourceDefinition (name : String) (raw : Value) : Result ResourceDefinition := do
  let path := (Breadcrumb.root "resources").key name
  let keys := ResourceKeys.ofVersion t.version
  let .map (raw : Fields Value) := raw | located path (fault (.resource (.notMap name)))
  match raw.keys.find? (!keys.all.contains ·) with
  | some key => located path (fault (.resource (.keyword key)))
  | none => pure ()
  let type ← located path (resourceType name keys.type raw)
  let properties ← t.part stack raw path true (some keys.properties)
  let metadata ← t.part stack raw path true (some keys.metadata)
  let updatePolicy ← t.part stack raw path true (some keys.updatePolicy)
  let externalId ← t.part stack raw path false keys.externalId
  let dependsOn ← located path (dependsOn keys.dependsOn (raw.get? keys.dependsOn))
  let policy ← located path (t.deletionPolicy (raw.get? keys.deletionPolicy))
  let description ←
    located path (resourceDescription keys.description (raw.get? keys.description))
  let condition ← t.condition stack raw keys.condition path
  let d : ResourceDefinition :=
    { name, type, properties, metadata, dependsOn, givenPolicy := policy, updatePolicy, description,
      condition }
  return match externalId with
    | some id => d.withExternalId id
    | none => d

def resourceDefinitions : Result (Fields ResourceDefinition) :=
  (t.entries .resources).mapM fun (name, raw) => do
    return (name, ← t.resourceDefinition stack name raw)

def outputDefinition (name : String) (raw : Value) : Result OutputDefinition := do
  let path := (Breadcrumb.root "outputs").key name
  let keys := OutputKeys.ofVersion t.version
  let .map (raw : Fields Value) := raw | located path (fault .output)
  match raw.keys.find? (!keys.all.contains ·) with
  | some key => located path (fault (.outputKeyword key))
  | none => pure ()
  let value ← match raw.get? keys.value with
    | some v => located (path.key keys.value) (t.snippet .ordinary stack v)
    | none => pure .null
  let condition ← t.condition stack raw keys.condition path
  return ⟨name, value, (raw.get? keys.description).bind Value.text?, condition⟩

def outputs : Result (Fields OutputDefinition) :=
  (t.entries .outputs).mapM fun (name, raw) => do
    return (name, ← t.outputDefinition stack name raw)

end Template

end Orchestration
