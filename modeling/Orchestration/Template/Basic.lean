import Orchestration.Document.Reader
import Orchestration.Version.Detect

namespace Orchestration

inductive Section
  | description
  | parameters
  | mappings
  | conditions
  | resources
  | outputs

namespace Section

def maps : List Section := [parameters, mappings, conditions, resources, outputs]

def key? (version : Version) : Section → Option String
  | description => some (if version.isHot then "description" else "Description")
  | parameters => some (if version.isHot then "parameters" else "Parameters")
  | mappings => if version.isHot then none else some "Mappings"
  | conditions => some (if version.isHot then "conditions" else "Conditions")
  | resources => some (if version.isHot then "resources" else "Resources")
  | outputs => some (if version.isHot then "outputs" else "Outputs")

end Section

structure Template where
  version : Version
  document : Fields Value
  files : Fields String

namespace Template

def section? (t : Template) (s : Section) : Result (Fields Value) :=
  match s.key? t.version with
  | none => pure []
  | some key =>
    match t.document.get? key with
    | none | some .null => pure []
    | some (.map fields) => pure fields
    | some other => fault (.sectionMap key other.typeName)

/-- A template is a map with one version key, and only with sections that its version knows. -/
def ofValue (document : Value) : Result Template := do
  let .map document := document | fault .notMap
  let version ← Version.detect document
  match (Fields.keys document).find? (!version.sections.contains ·) with
  | some key => fault (.unknownSection key)
  | none => pure ()
  let t : Template := ⟨version, document, []⟩
  Section.maps.forM fun s => discard (t.section? s)
  return t

def read (document : String) : Result Template :=
  match Document.read? document with
  | some document => ofValue document
  | none => fault .unreadable

def withFiles (t : Template) (files : Fields String) : Template := { t with files }

def entries (t : Template) (s : Section) : Fields Value := (t.section? s).toOption.getD []

def description? (t : Template) : Option String :=
  ((Section.description.key? t.version).bind t.document.get?).bind Value.text?

def hasResource (t : Template) (name : String) : Bool := (t.entries .resources).contains name

def condition? (t : Template) (name : String) : Option Value := (t.entries .conditions).get? name

def hasCondition (t : Template) (name : String) : Bool := (t.condition? name).isSome

def mapping? (t : Template) (name : String) : Option Value := (t.entries .mappings).get? name

def file? (t : Template) (name : String) : Option String := t.files.get? name

end Template

end Orchestration
