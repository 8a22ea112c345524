import Orchestration.Stack.Memo

/-!
The properties of a resource, evaluated when they are read. A null property reads like a missing
one.
-/

namespace Orchestration

structure Properties where
  names : List String
  value : String → Result (Option Value)

namespace Properties

def empty : Properties := ⟨[], fun _ => pure none⟩

def ofValues (fields : Fields Value) : Properties where
  names := fields.keys
  value name := pure ((fields.get? name).filter (!·.isNull))

def ofSnippets (stack : Stack) (fields : Fields Snippet) : Properties where
  names := fields.keys
  value name := do
    let some s := fields.get? name | return none
    let v ← stack.value s
    return if v.isNull then none else some v

/-- The properties of a definition. A call in their place is evaluated at once and must give a
map. -/
def ofSnippet (stack : Stack) (s : Option Snippet) : Result Properties := do
  let refuse (type : String) : Result Properties := fault (.propertiesMap type)
  match s with
  | none | some .null => return empty
  | some (.map fields) => return ofSnippets stack fields
  | some (.call c args) =>
    match ← stack.value (.call c args) with
    | .null => return empty
    | .map fields => return ofValues fields
    | other => refuse other.typeName
  | some other => refuse other.typeName

end Properties

end Orchestration
