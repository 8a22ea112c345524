import Orchestration.Error
import Orchestration.Value.Path

namespace Orchestration.Migration

def lookup (data : Fields Value) (path : List String) : Option Value :=
  if path.isEmpty then none else (Value.map data).select? (path.map .text)

def itemIndex? (items : List Value) (segment : String) : Option Nat :=
  (Text.unsigned? segment.toList).filter (· < items.length)

mutual

def remove (data : Fields Value) : List String → Fields Value
  | [] => data
  | [key] => data.erase key
  | key :: rest =>
    match data.get? key with
    | some (.map fields) => data.insert key (.map (remove fields rest))
    | some (.list items) => data.insert key (.list (removeItem items rest))
    | _ => data

def removeItem (items : List Value) : List String → List Value
  | [] => items
  | segment :: rest =>
    match itemIndex? items segment with
    | none => items
    | some i =>
      match rest, items[i]? with
      | [], _ => items.eraseIdx i
      | rest, some (.map fields) => items.set i (.map (remove fields rest))
      | _, _ => items

end

/-- The maps that a way leads to. Every item of a list on the way is entered. -/
def holders : (way : List String) → Fields Value → List (Fields Value)
  | [], data => [data]
  | key :: way, data =>
    match data.get? key with
    | some (.map fields) => holders way fields
    | some (.list items) => (items.filterMap Value.map?).flatMap (holders way)
    | _ => []

section

variable {m : Type → Type} [Monad m]

def editItem (change : Fields Value → m (Fields Value)) : Value → m Value
  | .map fields => .map <$> change fields
  | v => pure v

def edit (change : Fields Value → m (Fields Value)) :
    (way : List String) → Fields Value → m (Fields Value)
  | [], data => change data
  | key :: way, data => do
    match data.get? key with
    | some (.map fields) => return data.insert key (.map (← edit change way fields))
    | some (.list items) =>
      return data.insert key (.list (← items.mapM (editItem (edit change way))))
    | _ => return data

end

end Orchestration.Migration
