import Orchestration.Fields
import Orchestration.Function.Intrinsic

namespace Orchestration

inductive Entry
  | function (form : Form)
  /-- Negation reads its operand itself: a name is replaced by the condition's definition. -/
  | negation
  | removed (replacement : Option String)

namespace Entry

def isUsable : Entry → Bool
  | removed _ => false
  | _ => true

end Entry

abbrev Registry := Fields Entry

namespace Registry

def offers (r : Registry) (name : String) : Bool := (r.get? name).any Entry.isUsable

def names (r : Registry) : List String :=
  (Fields.keys (r.filter fun e => e.2.isUsable)).mergeSort (· ≤ ·)

end Registry

namespace CfnVersion

def functions : Registry := [
  ("Fn::FindInMap", .function .mapping),
  ("Fn::Select", .function .select),
  ("Fn::Join", .function (.join false)),
  ("Fn::Split", .function (.split false)),
  ("Fn::Replace", .function .replaceList),
  ("Fn::Base64", .function .base64),
  ("Fn::MemberListToMap", .function .memberList),
  ("Fn::ResourceFacade", .function .facade),
  ("Ref", .function .reference),
  ("Fn::GetAtt", .function .dottedAttribute),
  ("Fn::If", .function .choice)]

def conditionFunctions : Registry := [
  ("Fn::Equals", .function .equals),
  ("Ref", .function .parameter),
  ("Fn::FindInMap", .function .mapping),
  ("Fn::Not", .negation),
  ("Fn::And", .function (.connective .and)),
  ("Fn::Or", .function (.connective .or)),
  ("Condition", .function .condition)]

end CfnVersion

namespace HotVersion

def firstFunctions : Registry := [
  ("get_param", .function .parameter),
  ("get_resource", .function .resource),
  ("Ref", .function .reference),
  ("get_attr", .function .attributeOf),
  ("Fn::Select", .function .select),
  ("Fn::Join", .function (.join false)),
  ("Fn::Split", .function (.split false)),
  ("str_replace", .function (.replaceMap .lenient)),
  ("Fn::Replace", .function .replaceList),
  ("Fn::Base64", .function .base64),
  ("Fn::MemberListToMap", .function .memberList),
  ("resource_facade", .function .facade),
  ("Fn::ResourceFacade", .function .facade),
  ("get_file", .function .file)]

def additions : HotVersion → Registry
  | v20130523 => []
  | v20141016 => [
    ("get_param", .function .parameter),
    ("get_resource", .function .resource),
    ("get_attr", .function .attributeOf),
    ("get_file", .function .file),
    ("list_join", .function (.join false)),
    ("str_replace", .function (.replaceMap .lenient)),
    ("resource_facade", .function .facade),
    ("Fn::Select", .function .select),
    ("Fn::GetAZs", .removed none),
    ("Fn::Join", .removed (some "list_join")),
    ("Fn::Split", .removed (some "str_split")),
    ("Fn::Replace", .removed (some "str_replace")),
    ("Fn::Base64", .removed none),
    ("Fn::MemberListToMap", .removed none),
    ("Fn::ResourceFacade", .removed (some "resource_facade")),
    ("Ref", .removed (some "get_resource\" or \"get_param"))]
  | v20150430 => [
    ("digest", .function .digest),
    ("repeat", .function (.loop false))]
  | v20151015 => [
    ("list_join", .function (.join true)),
    ("str_split", .function (.split true))]
  | v20160408 => [
    ("map_merge", .function .merge)]
  | v20161014 => [
    ("repeat", .function (.loop true)),
    ("map_replace", .function .rename),
    ("equals", .function .equals),
    ("if", .function .choice),
    ("not", .negation),
    ("and", .function (.connective .and)),
    ("or", .function (.connective .or))]
  | v20170224 => [
    ("filter", .function .filter),
    ("str_replace_strict", .function (.replaceMap .strict))]
  | v20170901 => [
    ("list_concat", .function (.concat false)),
    ("list_concat_unique", .function (.concat true)),
    ("contains", .function .contains),
    ("str_replace_vstrict", .function (.replaceMap .veryStrict))]

def functions (v : HotVersion) : Registry :=
  if v = v20130523 then firstFunctions
  else Fields.ofList ((all.filter (·.rank ≤ v.rank)).flatMap additions)

def conditionFunctions (v : HotVersion) : Registry :=
  let basic : Registry := [
    ("equals", .function .equals),
    ("get_param", .function .parameter),
    ("not", .negation),
    ("and", .function (.connective .and)),
    ("or", .function (.connective .or))]
  if v.rank < v20161014.rank then []
  else if v.rank < v20170901.rank then basic
  else basic ++ [("contains", .function .contains)]

end HotVersion

namespace Version

def functions : Version → Registry
  | .cfn _ => CfnVersion.functions
  | .hot v => v.functions

def conditionFunctions : Version → Registry
  | .cfn _ => CfnVersion.conditionFunctions
  | .hot v => v.conditionFunctions

def registry (version : Version) (inConditions : Bool) : Registry :=
  if inConditions then version.conditionFunctions else version.functions

/-- Why a function that is not in the registry cannot be used, if the template family knows it. -/
def unavailable? (version : Version) (inConditions : Bool) (name : String) : Option Unavailability :=
  if inConditions && version.functions.offers name then some .notInConditions
  else match version with
    | .cfn _ => none
    | .hot current =>
      (HotVersion.all.find? fun v => ((Version.hot v).registry inConditions).offers name).map
        fun first => if current.rank < first.rank then .since first else .unsupported

inductive Reading
  | data
  | function (form : Form)
  | negation
  | unavailable (reason : Unavailability)

def reading (version : Version) (inConditions : Bool) (name : String) : Reading :=
  match (version.registry inConditions).get? name with
  | some (.function form) => .function form
  | some .negation => .negation
  | some (.removed replacement) => .unavailable (.removed replacement)
  | none =>
    match version.unavailable? inConditions name with
    | some reason => .unavailable reason
    | none => .data

end Version

end Orchestration
