namespace Orchestration

inductive HotVersion
  | v20130523
  | v20141016
  | v20150430
  | v20151015
  | v20160408
  | v20161014
  | v20170224
  | v20170901
  deriving DecidableEq

inductive CfnVersion
  | aws
  | heat
  deriving DecidableEq

inductive Version
  | cfn (v : CfnVersion)
  | hot (v : HotVersion)
  deriving DecidableEq

namespace HotVersion

def all : List HotVersion :=
  [v20130523, v20141016, v20150430, v20151015, v20160408, v20161014, v20170224, v20170901]

def date : HotVersion → String
  | v20130523 => "2013-05-23"
  | v20141016 => "2014-10-16"
  | v20150430 => "2015-04-30"
  | v20151015 => "2015-10-15"
  | v20160408 => "2016-04-08"
  | v20161014 => "2016-10-14"
  | v20170224 => "2017-02-24"
  | v20170901 => "2017-09-01"

def alias? : HotVersion → Option String
  | v20161014 => some "newton"
  | v20170224 => some "ocata"
  | v20170901 => some "pike"
  | _ => none

def rank (v : HotVersion) : Nat := all.idxOf v

def ofText? (s : String) : Option HotVersion := all.find? fun v => v.date = s || v.alias? = some s

end HotVersion

namespace Version

def hotKey : String := "heat_template_version"

def awsKey : String := "AWSTemplateFormatVersion"

def heatKey : String := "HeatTemplateFormatVersion"

def all : List Version := .cfn .aws :: .cfn .heat :: HotVersion.all.map .hot

def text : Version → String
  | .cfn .aws => s!"{awsKey} 2010-09-09"
  | .cfn .heat => s!"{heatKey} 2012-12-12"
  | .hot v => s!"{hotKey} {v.date}"

def isHot : Version → Bool
  | .hot _ => true
  | .cfn _ => false

def isHotSince (version : Version) (first : HotVersion) : Bool :=
  match version with
  | .hot v => first.rank ≤ v.rank
  | .cfn _ => false

def supportsConditions (version : Version) : Bool :=
  !version.isHot || version.isHotSince .v20161014

def sections (version : Version) : List String :=
  match version with
  | .cfn _ =>
    [awsKey, heatKey, "Description", "Parameters", "Mappings", "Conditions", "Resources", "Outputs"]
  | .hot _ =>
    [hotKey, "description", "parameter_groups", "parameters", "resources", "outputs"] ++
      if version.supportsConditions then ["conditions"] else []

end Version

inductive Unavailability
  | removed (replacement : Option String)
  | notInConditions
  | since (first : HotVersion)
  | unsupported

namespace Unavailability

def message (name : String) (version : Version) : Unavailability → String
  | .removed (some replacement) =>
    s!"The function \"{name}\" is not supported in {version.text}. Use \"{replacement}\" instead."
  | .removed none => s!"The function \"{name}\" is not supported in {version.text}."
  | .notInConditions =>
    s!"The function \"{name}\" is not supported in the conditions section of {version.text}"
  | .since first =>
    s!"The function \"{name}\" is not supported in {version.text}; it is available from {Version.hotKey} {first.date}"
  | .unsupported => s!"The function \"{name}\" is not supported in {version.text}"

end Unavailability

end Orchestration
