import Orchestration.Digest
import Orchestration.Snippet.Basic
import Orchestration.Template.Basic
import Orchestration.Text.Pieces

namespace Orchestration

namespace Form

def shape (name : String) : Form → String
  | parameter => s!"\x7b\"{name}\": name\x7d or \x7b\"{name}\": [name, path, ...]\x7d"
  | dottedAttribute => "[resource_name, attribute]"
  | attributeOf => "[resource_name, attribute, (path), ...]"
  | mapping => "[map_name, key, value]"
  | select => "[index, collection]"
  | memberList => "[key_name, value_name, list]"
  | loop _ => "\x7bfor_each: \x7bplaceholder: [value, ...]\x7d, template: template\x7d"
  | merge => "[\x7b...\x7d, \x7b...\x7d]"
  | rename => "[\x7b...\x7d, \x7bkeys: \x7b...\x7d, values: \x7b...\x7d\x7d]"
  | filter => "[[value, ...], [value, ...]]"
  | concat _ => "[[item, ...], [item, ...], ...]"
  | contains => "[value, [value1, value2, ...]]"
  | join false => "[delimiter, [string, ...]]"
  | join true => "[delimiter, [string, ...], ...]"
  | split false => "[delimiter, string]"
  | split true => "[delimiter, string, <index>]"
  | replaceList => "[\x7bplaceholder: value, ...\x7d, template]"
  | replaceMap _ => "\x7btemplate: string, params: \x7bplaceholder: value, ...\x7d\x7d"
  | digest => "[algorithm, value]"
  | equals => "[value_1, value_2]"
  | connective _ => "[condition_1, condition_2, ...]"
  | choice => "[condition, value_if_true, value_if_false]"
  | condition => "condition_name"
  | resource | reference | file | facade | base64 => ""

structure Site where
  template : Template
  inConditions : Bool
  name : String

namespace Site

variable (site : Site)

def refuse {α : Type} (f : CallFault) : Result α := fault (.call site.name f)

def refuseShape {α : Type} (form : Form) : Result α := site.refuse (.shape (form.shape site.name))

def checkCondition : Snippet → Result Unit
  | .text name => if site.template.hasCondition name then pure () else fault (.condition name)
  | _ => pure ()

def checkAlgorithm : Snippet → Result Unit
  | .text name =>
    if (Digest.Algorithm.ofName? name).isSome then pure ()
    else site.refuse (.algorithm (Digest.Algorithm.all.map (·.name)) name)
  | _ => pure ()

def checkAttribute (form : Form) : Snippet → Result Unit
  | .list (.text _ :: _ :: _) => pure ()
  | .list _ => site.refuse (.form (form.shape site.name))
  | _ => site.refuseShape form

def checkLoop (zips : Bool) (args : Snippet) : Result Unit := do
  let form := Form.loop zips
  let some fields := args.map? | site.refuseShape form
  let known (key : String) := key = "for_each" || key = "template" || zips && key = "permutations"
  unless fields.contains "template" && fields.keys.all known do site.refuseShape form
  match fields.get? "for_each" with
  | none => site.refuseShape form
  | some (.map _) | some (.call _ _) => pure ()
  | some _ => site.refuse .loopMap

end Site

def arity? : Form → Option (Nat → Bool)
  | mapping | memberList | choice => some (· == 3)
  | select | rename | filter | contains | join false | split false | replaceList | digest |
    equals => some (· == 2)
  | merge | concat _ => some fun _ => true
  | join true | connective _ => some (2 ≤ ·)
  | split true => some fun n => n == 2 || n == 3
  | _ => none

def checkArity (site : Site) (form : Form) (args : Snippet) : Result Unit :=
  match form.arity?, args with
  | none, _ => pure ()
  | some accepts, .list items => if accepts items.length then pure () else site.refuseShape form
  | some _, _ => site.refuseShape form

def checkArgs (site : Site) : Form → Snippet → Result Unit
  | parameter, .list [] => site.refuse .noArguments
  | parameter, .map _ | parameter, .null => site.refuseShape parameter
  | resource, .text _ => pure ()
  | resource, _ => site.refuse .resourceName
  | attributeOf, args => site.checkAttribute attributeOf args
  | file, .text _ => pure ()
  | file, _ => site.refuse .fileName
  | memberList, .list [.text _, .text _, _] => pure ()
  | memberList, _ => site.refuseShape memberList
  | loop zips, args => site.checkLoop zips args
  | replaceMap strictness, .map fields =>
    if fields.length == 2 && Fields.contains fields "template" && Fields.contains fields "params"
    then pure () else site.refuseShape (replaceMap strictness)
  | replaceMap strictness, _ => site.refuseShape (replaceMap strictness)
  | digest, .list (algorithm :: _) => site.checkAlgorithm algorithm
  | connective _, .list operands => operands.forM site.checkCondition
  | choice, .list (.scalar (.text name) :: _) => site.checkCondition (.text name)
  | choice, .list (.scalar (.bool _) :: _) | choice, .list (.call _ _ :: _) => pure ()
  | choice, _ => site.refuseShape choice
  | condition, .text name => site.checkCondition (.text name)
  | condition, _ => site.refuseShape condition
  | _, _ => pure ()

def buildPlain (site : Site) (form : Form) (fn : Intrinsic) (args : Snippet) :
    Result (Intrinsic × Snippet) := do
  form.checkArity site args
  form.checkArgs site args
  return (fn, args)

def buildParameter (site : Site) (args : Snippet) : Result (Intrinsic × Snippet) :=
  buildPlain site parameter .parameter args

def buildDotted (site : Site) (args : Snippet) : Result (Intrinsic × Snippet) := do
  match args with
  | .text dotted =>
    match Text.splitOnce? '.' dotted.toList with
    | some (name, field) =>
      return (.attributeOf, .list [.text (String.ofList name), .text (String.ofList field)])
    | none => site.refuseShape dottedAttribute
  | .list [_, _] =>
    site.checkAttribute dottedAttribute args
    return (.attributeOf, args)
  | _ => site.refuseShape dottedAttribute

def build (site : Site) (args : Snippet) : Form → Result (Intrinsic × Snippet)
  | parameter => buildParameter site args
  | resource => buildPlain site resource .resource args
  | reference =>
    match args with
    | .text name =>
      if !site.inConditions && site.template.hasResource name then return (.resource, args)
      else buildParameter site args
    | _ => buildParameter site args
  | attributeOf => buildPlain site attributeOf .attributeOf args
  | dottedAttribute => buildDotted site args
  | file => buildPlain site file .file args
  | mapping => buildPlain site mapping .mapping args
  | facade =>
    match args.text?.bind FacadeField.ofText? with
    | some field => return (.facade field, args)
    | none => site.refuse .facadeField
  | select => buildPlain site select .select args
  | memberList => buildPlain site memberList .memberList args
  | loop zips => buildPlain site (loop zips) (.loop zips) args
  | merge => buildPlain site merge .merge args
  | rename => buildPlain site rename .rename args
  | filter => buildPlain site filter .filter args
  | concat unique => buildPlain site (concat unique) (.concat unique) args
  | contains => buildPlain site contains .contains args
  | join multiple => buildPlain site (join multiple) (.join multiple) args
  | split indexed => buildPlain site (split indexed) .split args
  | replaceList => buildPlain site replaceList .replaceList args
  | replaceMap strictness => buildPlain site (replaceMap strictness) (.replaceMap strictness) args
  | base64 => return (.base64, args)
  | digest => buildPlain site digest .digest args
  | equals => buildPlain site equals .equals args
  | connective c => buildPlain site (connective c) (.connective c) args
  | choice => buildPlain site choice .choice args
  | condition => buildPlain site condition .condition args

end Form

end Orchestration
