import Orchestration.Properties.Basic
import Orchestration.Migration.Apply
import Orchestration.Migration.Basic

/-!
Reading properties through rules. The tables keep the migrated values, what is left of properties
after parts were taken out of them, and which properties are being migrated; a property that is
needed while it is being migrated is read as it is.
-/

namespace Orchestration.Migration

structure Tables where
  /-- The migrated properties; one may have no value. -/
  cache : Fields (Option Value)
  residue : Fields (Option Value)
  inProgress : List String
  queries : List Query

def Tables.empty : Tables := ⟨[], [], [], []⟩

abbrev Reading := ExceptT Error (StateM Tables)

namespace Reading

def ofApplying {α : Type} (x : Applying α) : Reading α :=
  ExceptT.mk do
    let (outcome, asked) := x.run []
    modify fun tables => { tables with queries := tables.queries ++ asked }
    return outcome

def guarded {α : Type} (key : String) (read : Reading α) : Reading α :=
  ExceptT.mk do
    modify fun tables => { tables with inProgress := key :: tables.inProgress }
    let outcome ← read.run
    modify fun tables => { tables with inProgress := tables.inProgress.erase key }
    return outcome

def remember (key : String) (v : Option Value) : Reading Unit :=
  modify fun tables => { tables with cache := tables.cache.insert key v }

def leave (key : String) (v : Option Value) : Reading Unit :=
  modify fun tables => { tables with residue := tables.residue.insert key v }

end Reading

section

variable {m : Type → Type} [Monad m] (value : String → m (Option Value))

def gatherOne (data : Fields Value) (key : String) : m (Fields Value) := do
  if data.contains key then return data
  match ← value key with
  | some v => return data.insert key v
  | none => return data

def gather (keys : List String) : m (Fields Value) := keys.foldlM (gatherOne value) []

end

variable (m : Migration) (p : Properties)

def load (key : String) : Reading (Option Value) := do
  match (← get).residue.get? key with
  | some left => return left
  | none => p.value key

def applyRules (key : String) : Reading (Option Value) := do
  let rules := m.rulesFor key
  let data ← gather (load p) (key :: rules.filterMap Rule.input?)
  let data ← .ofApplying (rules.foldlM (fun data r => r.apply m.clientResolve data) data)
  (rules.filterMap Rule.nestedSource?).forM fun root => .leave root (data.get? root)
  return data.get? key

/-- Run the rules for a property and remember its value. A parameter that has no value is no reason
to fail: then the property is read as it is. -/
def applyOrLoad (key : String) : Reading (Option Value) :=
  ExceptT.mk do
    match ← (applyRules m p key).run with
    | .ok v => (do Reading.remember key v; return v : Reading (Option Value)).run
    | .error (.bare (.parameterMissing _)) => (load p key).run
    | .error e => return .error e

/-- What the tables say about a property: its migrated value, or while it is being migrated what is
written. One that they do not know is migrated. -/
def retrieve (key : String) (new : Reading (Option Value)) : Reading (Option Value) := do
  match (← get).cache.get? key, (← get).inProgress.contains key with
  | some v, _ => return v
  | none, true => load p key
  | none, false => new

/-- The migrated value of a property. Those whose rules take parts out of it are migrated first. -/
def migrateWith : (fuel : Nat) → String → Reading (Option Value)
  | 0, key => retrieve p key (load p key)
  | fuel + 1, key => retrieve p key <| .guarded key do
    (m.movedFrom key).forM fun other => discard (migrateWith fuel other)
    applyOrLoad m p key

/-- The migrated value of a property. Properties that are being migrated at once are different, and
all but the first have rules. -/
def migrate (key : String) : Reading (Option Value) :=
  migrateWith m p (m.rules.length + 1) key

end Orchestration.Migration
