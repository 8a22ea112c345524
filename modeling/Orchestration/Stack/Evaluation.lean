import Orchestration.Function.Collection
import Orchestration.Function.Loop
import Orchestration.Function.Member
import Orchestration.Function.Writing
import Orchestration.Stack.Basic
import Orchestration.Stack.Inquiry

namespace Orchestration

namespace Evaluation

/-- An argument and its evaluation, which may never be asked for. -/
structure Operand where
  written : Snippet
  evaluation : Unit → Inquiry Value

def Operand.value (o : Operand) : Inquiry Value := o.evaluation ()

/-- Whether an operand lets something be enabled: no condition, a truth value, the name of a
condition, or a call that gives one of the two. -/
def Operand.isEnabled (o : Operand) : Inquiry Bool := do
  match o.written with
  | .null => return true
  | .bool b => return b
  | .text name => .truth name
  | .call _ _ =>
    match ← o.value with
    | .bool b => return b
    | .text name => .truth name
    | other => .stop (.conditionResult other.shortText)
  | other => .stop (.conditionResult other.canonical.shortText)

inductive Parts
  | single
  | items (operands : List Operand)
  | fields (operands : Fields Operand)

structure Arguments where
  whole : Operand
  parts : Parts

namespace Arguments

def items (args : Arguments) : List Operand :=
  match args.parts with
  | .items operands => operands
  | _ => []

def field? (args : Arguments) (key : String) : Option Operand :=
  match args.parts with
  | .fields operands => operands.get? key
  | _ => none

end Arguments

structure Site where
  stack : Stack
  name : String

namespace Site

variable (site : Site)

def refuse {α : Type} (f : CallFault) : Result α := fault (.call site.name f)

def refuseShape {α : Type} (form : Form) : Result α := site.refuse (.shape (form.shape site.name))

def parameter (args : Arguments) : Inquiry Value := do
  let (name, path) ← match ← args.whole.value with
    | .list (name :: path) => pure (name, path)
    | .list [] => fault (.call "get_param" .noArguments)
    | name => pure (name, [])
  let .text name := name | site.refuse .parameterName
  let v ← site.stack.parameters.value name
  return if path.isEmpty then v else (v.select? path).getD (.text "")

def resource (args : Arguments) : Inquiry Value := do
  let name := args.whole.written.text?.getD ""
  return ((site.stack.resources.get? name).map (·.refId)).getD .null

def attributeOf (args : Arguments) : Inquiry Value := do
  let target := ((args.items.head?.bind (·.written.text?)).bind site.stack.resources.get?)
  let some resource := target.filter (·.available) | return .null
  let field ← match args.items[1]? with
    | some o => o.value
    | none => pure .null
  let .text field := field | site.refuse (.attributeName field)
  let path ← (args.items.drop 2).mapM (·.value)
  resource.attributeAt field path

def file (args : Arguments) : Inquiry Value := do
  let path := args.whole.written.text?.getD ""
  match site.stack.template.file? path with
  | some content => return .text content
  | none => site.refuse (.noFile path)

def mapping (args : Arguments) : Inquiry Value := do
  let [mapping, key, field] := args.items | site.refuseShape .mapping
  let name (o : Operand) : Inquiry String := do
    match ← o.value with
    | .text name => return name
    | other => site.refuse (.mappingName other)
  let mapping ← name mapping
  let key ← name key
  let field ← name field
  match site.stack.template.mapping? mapping with
  | none => fault (.mapping mapping)
  | some entries =>
    match entries.select? [.text key, .text field] with
    | some v => return v
    | none => fault (.mappingEntry mapping key field)

def facade (field : FacadeField) : Inquiry Value := do
  let some parent := site.stack.parent | site.refuse .noParent
  let written (s : Option Snippet) : Value := (s.map Snippet.canonical).getD (.map [])
  match field with
  | .metadata => return written parent.metadata
  | .deletionPolicy => return .text parent.deletionPolicy.name
  | .updatePolicy => return written parent.updatePolicy

def select (args : Arguments) : Inquiry Value := do
  let [index, collection] := args.items | site.refuseShape .select
  let index ← index.value
  let collection ← collection.value
  Collection.select site.name index collection

def memberList (args : Arguments) : Inquiry Value := do
  let [key, field, members] := args.items | site.refuseShape .memberList
  let some key := key.written.text? | site.refuseShape .memberList
  let some field := field.written.text? | site.refuseShape .memberList
  let .list members ← members.value | site.refuse .memberList
  let some texts := members.mapM Value.text? | site.refuse .memberText
  return .map (Member.toFields key field (texts.filterMap Member.ofText?))

def loop (args : Arguments) : Inquiry Value := do
  let some loops := args.field? "for_each" | site.refuseShape (.loop false)
  let .map loops ← loops.value | site.refuse .loopMap
  let template ← match args.field? "template" with
    | some o => o.value
    | none => pure .null
  let permutations ← match args.field? "permutations" with
    | none => pure true
    | some o => match ← o.value with
      | .bool b => pure b
      | _ => site.refuse .permutations
  Loop.copies site.name loops template permutations

def merge (args : Arguments) : Inquiry Value :=
  .map <$> args.items.foldlM (fun merged o => do Collection.merge merged (← o.value)) []

def rename (args : Arguments) : Inquiry Value := do
  let [input, replacements] := args.items | site.refuseShape .rename
  let .map input ← input.value | site.refuseShape .rename
  let .map (given : Fields Value) ← replacements.value | site.refuseShape .rename
  unless given.keys.all fun key => key = "keys" || key = "values" do site.refuseShape .rename
  let keys ← Collection.replacements site.name "keys" given
  let values ← Collection.replacements site.name "values" given
  .map <$> (Collection.rename input keys values : Result _)

def filter (args : Arguments) : Inquiry Value := do
  let [removed, items] := args.items | site.refuseShape .filter
  let removed ← match ← removed.value with
    | .null => pure []
    | .list removed => pure removed
    | _ => site.refuseShape .filter
  let .list items ← items.value | site.refuseShape .filter
  return .list (Collection.filter removed items)

def concat (unique : Bool) (args : Arguments) : Inquiry Value :=
  .list <$> args.items.foldlM (fun found o => do
    match ← o.value with
    | .null => return found
    | .list items => return Collection.append unique found items
    | _ => site.refuseShape (.concat unique)) []

def contains (args : Arguments) : Inquiry Value := do
  let [needle, haystack] := args.items | site.refuseShape .contains
  let needle ← needle.value
  match ← haystack.value with
  | .list items => return .bool (Value.among items needle)
  | other => site.refuse (.haystack other)

def join (multiple : Bool) (args : Arguments) : Inquiry Value := do
  let delimiter :: lists := args.items | site.refuseShape (.join multiple)
  let delimiter ← Writing.text site.name "delimiter" (← delimiter.value)
  let texts ← lists.mapM fun o => do Writing.itemTexts site.name multiple (← o.value)
  return .text (Writing.join delimiter texts.flatten)

def split (args : Arguments) : Inquiry Value := do
  let delimiter :: s :: index := args.items | site.refuseShape (.split false)
  let delimiter ← Writing.text site.name "delimiter" (← delimiter.value)
  let s ← Writing.splitText site.name (← s.value)
  if delimiter.isEmpty then site.refuse .emptyDelimiter
  let pieces := Writing.split delimiter s
  match index with
  | [] => return .texts pieces
  | index :: _ => Writing.piece site.name pieces (← index.value)

def replaceIn (strictness : Strictness) (template params : Operand) : Inquiry Value := do
  let template ← Writing.text site.name "template" (← template.value)
  Writing.replace site.name strictness template (← params.value)

def replaceList (args : Arguments) : Inquiry Value := do
  let [params, template] := args.items | site.refuseShape .replaceList
  site.replaceIn .lenient template params

def replaceMap (strictness : Strictness) (args : Arguments) : Inquiry Value := do
  let some params := args.field? "params" | site.refuseShape (.replaceMap strictness)
  let some template := args.field? "template" | site.refuseShape (.replaceMap strictness)
  site.replaceIn strictness template params

def base64 (args : Arguments) : Inquiry Value := do
  return .text (← Writing.text site.name "argument" (← args.whole.value))

def digest (args : Arguments) : Inquiry Value := do
  let [algorithm, s] := args.items | site.refuseShape .digest
  let algorithm ← Writing.text site.name "algorithm" (← algorithm.value)
  let s ← Writing.text site.name "value" (← s.value)
  Writing.digest site.name algorithm s

def equals (args : Arguments) : Inquiry Value := do
  let [left, right] := args.items | site.refuseShape .equals
  let left ← left.value
  let right ← right.value
  return .bool (left.equal right)

def decide (stop : Bool) : List Operand → Inquiry Bool
  | [] => return !stop
  | o :: rest => do
    if (← o.isEnabled) = stop then return stop
    decide stop rest

def connective (c : Connective) (args : Arguments) : Inquiry Value :=
  .bool <$> decide (c = .or) args.items

/-- The operand stands alone or as the first item of a list. -/
def negation (args : Arguments) : Inquiry Value := do
  let operand := match args.parts with
    | .items operands => operands.head?
    | _ => some args.whole
  let some operand := operand | site.refuse (.shape "[condition]")
  match ← operand.value with
  | .bool b => return .bool !b
  | other => fault (.negation other)

def choice (args : Arguments) : Inquiry Value := do
  let [condition, yes, no] := args.items | site.refuseShape .choice
  if ← condition.isEnabled then yes.value else no.value

def condition (args : Arguments) : Inquiry Value := do
  let some name := args.whole.written.text? | site.refuseShape .condition
  return .bool (← .truth name)

def value (args : Arguments) : Intrinsic → Inquiry Value
  | .parameter => site.parameter args
  | .resource => site.resource args
  | .attributeOf => site.attributeOf args
  | .file => site.file args
  | .mapping => site.mapping args
  | .facade field => site.facade field
  | .select => site.select args
  | .memberList => site.memberList args
  | .loop _ => site.loop args
  | .merge => merge args
  | .rename => site.rename args
  | .filter => site.filter args
  | .concat unique => site.concat unique args
  | .contains => site.contains args
  | .join multiple => site.join multiple args
  | .split => site.split args
  | .replaceList => site.replaceList args
  | .replaceMap strictness => site.replaceMap strictness args
  | .base64 => site.base64 args
  | .digest => site.digest args
  | .equals => site.equals args
  | .connective c => connective c args
  | .choice => site.choice args
  | .condition => site.condition args
  | .negation => site.negation args
  | .unavailable version reason => .stop (.unsupportedFunction site.name version reason)

end Site

section

variable (stack : Stack)

mutual

def resolve : Snippet → Inquiry Value
  | .scalar s => return .scalar s
  | .list items => .list <$> (operands items).mapM (·.value)
  | .map fields => .map <$> (fieldOperands fields).mapM fun (k, o) => return (k, ← o.value)
  | .call c args => do
    stack.checkOwn c
    Site.value ⟨stack, c.name⟩ ⟨⟨args, fun _ => resolve args⟩, parts args⟩ c.fn

def parts : Snippet → Parts
  | .list items => .items (operands items)
  | .map fields => .fields (fieldOperands fields)
  | _ => .single

def operands : List Snippet → List Operand
  | [] => []
  | s :: rest => ⟨s, fun _ => resolve s⟩ :: operands rest

def fieldOperands : List (String × Snippet) → Fields Operand
  | [] => []
  | (k, s) :: rest => (k, ⟨s, fun _ => resolve s⟩) :: fieldOperands rest

end

def truth (name : String) (definition : Snippet) : Inquiry Bool := do
  match definition with
  | .bool b => return b
  | .text other => .truth other
  | .call _ _ =>
    match ← resolve stack definition with
    | .bool b => return b
    | _ => .stop (.conditionResult name)
  | _ => .stop (.conditionResult name)

end

end Evaluation

end Orchestration
