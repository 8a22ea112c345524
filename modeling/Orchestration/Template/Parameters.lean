import Orchestration.Snippet.Basic
import Orchestration.Template.Basic
import Orchestration.Text.Blank
import Orchestration.Text.Pieces

namespace Orchestration

inductive ParameterType
  | string
  | number
  | commaDelimitedList
  | json
  | boolean
  deriving DecidableEq

namespace ParameterType

def ofText? (isHot : Bool) (s : String) : Option ParameterType :=
  if isHot then
    match s with
    | "string" => some string
    | "number" => some number
    | "comma_delimited_list" => some commaDelimitedList
    | "json" => some json
    | "boolean" => some boolean
    | _ => none
  else
    match s with
    | "String" => some string
    | "Number" => some number
    | "CommaDelimitedList" => some commaDelimitedList
    | "Json" => some json
    | "Boolean" => some boolean
    | _ => none

def expected : ParameterType → Value → String
  | string, _ => "a string"
  | number, _ => "a number"
  | commaDelimitedList, .list _ => "a list of strings"
  | commaDelimitedList, _ => "a comma delimited list"
  | json, _ => "a JSON list or map"
  | boolean, _ => "a boolean"

/-- Blanks around a number do not count; an integer is one only if it fits. -/
def numberOfText? (s : String) : Option Value :=
  let s := Text.trim s.toList
  ((Text.signed? s).map .integer).or ((Decimal.parse? s).map .decimal)

def itemsOfText (s : String) : List Value :=
  if s.isEmpty then []
  else (Text.pieces [','] s.toList).map fun item => .text (String.ofList (Text.trim item))

/-- A list or a map written as JSON; a blank text is the empty map. -/
def jsonOfText? (s : String) : Option Value :=
  if (Text.trim s.toList).isEmpty then some (.map [])
  else (Json.read? .data s).filter fun v => v.list?.isSome || v.map?.isSome

/-- Letters of the words for truth count in either case. No character outside of ASCII is another
case of one of them. -/
def booleanOfText? (s : String) : Option Value :=
  match String.ofList (s.toList.map Char.toLower) with
  | "true" | "t" | "yes" | "y" | "on" | "1" => some (.bool true)
  | "false" | "f" | "no" | "n" | "off" | "0" => some (.bool false)
  | _ => none

def convert? : ParameterType → Value → Option Value
  | string, .scalar s => some (.text s.plain)
  | string, _ => none
  | number, .integer i => some (.integer i)
  | number, .decimal d => some (.decimal d)
  | number, .text s => numberOfText? s
  | number, _ => none
  | commaDelimitedList, .text s => some (.list (itemsOfText s))
  | commaDelimitedList, .list items => .list <$> items.mapM fun v => v.plain?.map .text
  | commaDelimitedList, _ => none
  | json, .text s => jsonOfText? s
  | json, .scalar _ => none
  | json, v => some v
  | boolean, .bool b => some (.bool b)
  | boolean, .integer i => if i = 0 then some (.bool false) else if i = 1 then some (.bool true) else none
  | boolean, .text s => booleanOfText? s
  | boolean, _ => none

def convert (type : ParameterType) (name : String) (v : Value) : Result Value :=
  match type.convert? v with
  | some converted => pure converted
  | none => fault (.parameter (.value name v (type.expected v)))

end ParameterType

structure ParameterSchema where
  type : ParameterType
  default : Option Value

namespace ParameterSchema

def ofValue (version : Version) (name : String) (schema : Value) : Result ParameterSchema := do
  let isHot := version.isHot
  let .map (schema : Fields Value) := schema | fault (.parameter (.notMap name))
  let type ← match schema.get? (if isHot then "type" else "Type") with
    | some (.text written) =>
      match ParameterType.ofText? isHot written with
      | some type => pure type
      | none => fault (.parameter (.unknownType name written))
    | _ => fault (.parameter (.typeMissing name))
  let default ← (schema.get? (if isHot then "default" else "Default")).mapM (type.convert name)
  return ⟨type, default⟩

end ParameterSchema

abbrev Parameters := Fields (Option Value)

namespace Parameters

def pseudo (version : Version) (stackName : String) (stack : StackId) : Fields Value :=
  if version.isHot then
    [("OS::stack_name", .text stackName), ("OS::stack_id", .text stack.label),
      ("OS::project_id", .text "")]
  else
    [("AWS::StackName", .text stackName),
      ("AWS::StackId", .text s!"arn:openstack:heat:::stacks/{stackName}/{stack.label}"),
      ("AWS::Region", .text "ap-southeast-1")]

def schemas (t : Template) : Result (Fields ParameterSchema) := do
  (← t.section? .parameters).mapM fun (name, schema) => do
    return (name, ← ParameterSchema.ofValue t.version name schema)

/-- The values of a stack: given ones first, then defaults; those that every stack has come on top
of all others. -/
def make (t : Template) (given : Fields Value) (stackName : String) (stack : StackId) :
    Result Parameters := do
  let schemas ← schemas t
  match given.keys.find? (!schemas.contains ·) with
  | some name => throw (.bare (.unknownParameter name))
  | none => pure ()
  let declared ← schemas.mapM fun (name, schema) => do
    match given.get? name with
    | some v => return (name, some (← schema.type.convert name v))
    | none => return (name, schema.default)
  return Fields.extend declared ((pseudo t.version stackName stack).map fun (name, v) => (name, some v))

def isDeclared (ps : Parameters) (name : String) : Bool := Fields.contains ps name

def value (ps : Parameters) (name : String) : Result Value :=
  match Fields.get? ps name with
  | none => .error (.bare (.unknownParameter name))
  | some none => .error (.bare (.parameterMissing name))
  | some (some v) => pure v

end Parameters

end Orchestration
