import Orchestration.Migration.Tables

namespace Orchestration

open Migration (Reading)

structure PropertyView where
  properties : Properties
  migration : Option Migration

namespace PropertyView

variable (view : PropertyView)

def keys : List String :=
  let targets := (view.migration.map (·.targets)).getD []
  targets.foldl (fun keys key => if keys.contains key then keys else keys ++ [key])
    view.properties.names

/-- The value of a property. One that is moved elsewhere has none. -/
def read (key : String) : Reading (Option Value) := do
  match view.migration with
  | none => view.properties.value key
  | some m =>
    if m.masks key then return none
    else if m.affects key then return (← m.migrate view.properties key).filter (!·.isNull)
    else view.properties.value key

section

variable {m : Type → Type} [Monad m] (read : String → m (Option Value))

def collectOne (found : Fields Value) (key : String) : m (Fields Value) := do
  match ← read key with
  | some v => return found.insert key v
  | none => return found

def collect : m (Fields Value) := view.keys.foldlM (collectOne read) []

end

def readAll : Reading (Fields Value) := view.collect view.read

end PropertyView

end Orchestration
