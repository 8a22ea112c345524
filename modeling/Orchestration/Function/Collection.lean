import Orchestration.Error
import Orchestration.Json.Reader
import Orchestration.Text.Blank

namespace Orchestration.Collection

/-- An item of a list, counted from its end if the index is negative; none is the empty text. -/
def item (items : List Value) (index : Int) : Value :=
  let index := if index < 0 then items.length + index else index
  if index < 0 then .text "" else (items[index.toNat]?).getD (.text "")

def index? : Value → Option Int
  | .integer i => some i.toInt
  | .text s => (Text.signed? (Text.trim s.toList)).map Int64.toInt
  | _ => none

def decoded (function : String) : Value → Result Value
  | .text s =>
    match Json.read? .data s with
    | some v => pure v
    | none => fault (.call function .notJson)
  | v => pure v

def select (function : String) (index collection : Value) : Result Value := do
  let refuse (f : CallFault) : Result Value := fault (.call function f)
  match ← decoded function collection with
  | .map fields =>
    match index with
    | .text key => return (Fields.get? fields key).getD (.text "")
    | _ => refuse .mapIndex
  | .list items =>
    match index? index with
    | some i => return item items i
    | none => refuse .listIndex
  | .null => return .text ""
  | _ => refuse .notResolved

def merge (merged : Fields Value) : Value → Result (Fields Value)
  | .null => pure merged
  | .map fields => pure (merged.extend fields)
  | other => fault (.mergeItem other)

def replacements (function kind : String) (given : Fields Value) : Result (Fields Value) :=
  match given.get? kind with
  | none | some .null => pure []
  | some (.map fields) => pure fields
  | some _ => fault (.call function (.replacements kind))

/-- The name that a key of `input` gets: never that of another key of `input`. -/
def renamed (input keys : Fields Value) (key : String) : Result String :=
  match keys.get? key with
  | none => pure key
  | some (.text name) =>
    if name ≠ key && input.contains name then fault (.renamedToInput name) else pure name
  | some other => fault (.renamedToOther other)

def replaced (values : Fields Value) (v : Value) : Value :=
  match v with
  | .text s => (values.get? s).getD v
  | _ => v

def rename (input keys values : Fields Value) : Result (Fields Value) :=
  input.foldlM (fun output (key, v) => do
    let name ← renamed input keys key
    if output.contains name then fault (.renamedTwice name)
    return output.insert name (replaced values v)) []

def filter (removed items : List Value) : List Value :=
  items.filter fun v => !Value.among removed v

def append (unique : Bool) (found items : List Value) : List Value :=
  items.foldl (fun found v => if unique && Value.among found v then found else found ++ [v]) found

end Orchestration.Collection
