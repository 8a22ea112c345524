import Orchestration.Migration.Path
import Orchestration.Migration.Rule

namespace Orchestration.Migration

abbrev Applying := ExceptT Error (StateM (List Query))

def Lookup.ask (l : Lookup) (v : Value) : Applying Value := do
  modify (· ++ [⟨l.finder, l.entity, v⟩])
  (l.client.find l.finder l.entity v : Result Value)

namespace Source

def picked (pick : Option (List String)) (v : Value) : Value :=
  match pick with
  | none => v
  | some path =>
    let part (v : Value) : Value := (v.select? (path.map .text)).getD .null
    match v with
    | .list items => .list (items.map part)
    | v => part v

/-- The value that a source has for one map among the properties; null is none. -/
def value? (data holder : Fields Value) (source : Source) : Option Value :=
  let found := match source with
    | given v => some v
    | sibling name pick => (holder.get? name).map (picked pick)
    | top path pick => (lookup data path).map (picked pick)
  found.filter (!·.isNull)

def name? : Source → Option String
  | given _ => none
  | sibling name _ => some name
  | top path _ => some (pathText path)

end Source

namespace Rule

variable (r : Rule)

def addTo (source : Source) (data holder : Fields Value) : Result (Fields Value) := do
  let some v := source.value? data holder | return holder
  let items ← match holder.get? r.field with
    | none | some .null => pure []
    | some (.list items) => pure items
    | some other => .error (.bare (.rule .add r.target (.target other)))
  return (holder.erase r.field).insert r.field (.list (items ++ v.list?.getD [v]))

/-- Write the field. A value from elsewhere never takes the place of another one, and a sibling is
taken out. -/
def replaceIn (source : Source) (data holder : Fields Value) : Result (Fields Value) := do
  let some v := source.value? data holder | return holder
  let isOccupied := ((holder.get? r.field).filter (!·.isNull)).isSome
  if let (true, some name) := (isOccupied, source.name?) then
    throw (.bare (.propertyConflict [r.target, name]))
  let holder := holder.insert r.field v
  return match source with
    | .sibling name _ => holder.erase name
    | _ => holder

def vacate (source : Source) (data changed : Fields Value) : Fields Value :=
  match source with
  | .top path _ =>
    let isMoved := (holders r.way data).any fun holder => (source.value? data holder).isSome
    if isMoved then remove changed path else changed
  | _ => changed

def resolveIn (l : Lookup) (holder : Fields Value) : Applying (Fields Value) := do
  match holder.get? r.field with
  | none | some .null => return holder
  | some (.list items) => return holder.insert r.field (.list (← items.mapM l.ask))
  | some v => return holder.insert r.field (← l.ask v)

/-- Run a rule. Clients are asked only if `clientResolve` is set. -/
def apply (clientResolve : Bool) (data : Fields Value) : Applying (Fields Value) :=
  match r.action with
  | .add source => (edit (r.addTo source data) r.way data : Result _)
  | .replace source => do
    let changed ← (edit (r.replaceIn source data) r.way data : Result _)
    return r.vacate source data changed
  | .resolve l => if clientResolve then edit (r.resolveIn l) r.way data else return data
  | .delete => edit (fun holder => pure (holder.erase r.field)) r.way data

end Rule

end Orchestration.Migration
