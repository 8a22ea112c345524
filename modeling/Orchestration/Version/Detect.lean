import Orchestration.Error
import Orchestration.Fields

namespace Orchestration.Version

def keys : List String := [hotKey, awsKey, heatKey]

def ofText? (key written : String) : Option Version :=
  if key = hotKey then (HotVersion.ofText? written).map .hot
  else if key = awsKey then if written = "2010-09-09" then some (.cfn .aws) else none
  else if written = "2012-12-12" then some (.cfn .heat) else none

def detect (document : Fields Value) : Result Version := do
  let raise (fault : VersionFault) : Result Version := .error (.bare (.version fault))
  match keys.filterMap fun key => (document.get? key).map (key, ·) with
  | [] => raise .missing
  | [(key, value)] =>
    let written := value.text?.getD value.sortedJson
    match ofText? key written with
    | some version => pure version
    | none => raise (.unknown key written)
  | found => raise (.ambiguous (found.map Prod.fst))

end Orchestration.Version
