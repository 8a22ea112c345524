import Orchestration.Digest
import Orchestration.Error
import Orchestration.Text.Substitution
import Orchestration.Function.Intrinsic

namespace Orchestration.Writing

def text (function what : String) : Value → Result String
  | .text s => pure s
  | other => fault (.call function (.notText what other))

/-- The text of an item that is joined. Lists and maps are written as JSON where several lists may
be joined, and refused elsewhere. -/
def itemText (function : String) (multiple : Bool) (v : Value) : Result String :=
  match v with
  | .null => pure ""
  | .text s => pure s
  | .scalar _ => fault (.call function (.joinItem multiple v))
  | v => if multiple then pure v.sortedJson else fault (.call function (.joinItem multiple v))

def itemTexts (function : String) (multiple : Bool) : Value → Result (List String)
  | .null => pure []
  | .list items => items.mapM (itemText function multiple)
  | _ => fault (.call function .joinList)

def join (delimiter : String) (texts : List String) : String :=
  String.ofList (Text.join delimiter.toList (texts.map String.toList))

def splitText (function : String) : Value → Result String
  | .null => pure ""
  | .text s => pure s
  | other => fault (.call function (.splitText other))

def split (delimiter s : String) : List String :=
  (Text.pieces delimiter.toList s.toList).map String.ofList

def pieceIndex? : Value → Option Int
  | .integer i => some i.toInt
  | .text s => (Text.signed? s.toList).map Int64.toInt
  | _ => none

def piece (function : String) (pieces : List String) (index : Value) : Result Value :=
  match (pieceIndex? index).bind fun i => if 0 ≤ i then pieces[i.toNat]? else none with
  | some s => pure (.text s)
  | none => fault (.call function (.splitIndex (pieces.length - 1)))

def param (function : String) (strictness : Strictness) (template : String) (name : String)
    (v : Value) : Result Text.Placeholder := do
  let refuse (f : CallFault) : Result Unit := fault (.call function f)
  match v.plain? with
  | none => fault (.call function (.paramValue v))
  | some s =>
    if strictness = .veryStrict && s.isEmpty then refuse (.emptyParam name)
    if strictness ≠ .lenient && !Text.occurs name.toList template.toList then
      refuse (.unusedParam name)
    return ⟨name.toList, s.toList⟩

/-- Write parameters into a text. A parameter without a name is written nowhere. -/
def replace (function : String) (strictness : Strictness) (template : String) :
    Value → Result Value
  | .map params => do
    let ps ← params.mapM fun (name, v) => param function strictness template name v
    let ps := Text.Placeholder.sort (ps.filter fun p => !p.name.isEmpty)
    return .text (String.ofList (Text.substitute ps template.toList))
  | other => fault (.call function (.params other))

def digest (function algorithm s : String) : Result Value :=
  match Digest.Algorithm.ofName? algorithm with
  | some a => pure (.text (a.hexDigest s))
  | none => fault (.call function (.algorithm (Digest.Algorithm.all.map (·.name)) algorithm))

end Orchestration.Writing
