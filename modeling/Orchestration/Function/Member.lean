import Orchestration.Error
import Orchestration.Text.Numeral
import Orchestration.Text.Pieces

/-!
Member lists: maps written as lists of texts `.member.N.field=text`. The numbers order the entries;
the place of a member in the list does not matter.
-/

namespace Orchestration

structure Member where
  index : Nat
  field : String
  text : String

namespace Member

def ofText? (s : String) : Option Member := do
  let (key, text) ← Text.splitOnce? '=' s.toList
  let key := (Text.after? ['.'] key).getD key
  let (index, field) ← Text.splitOnce? '.' (← Text.after? "member.".toList key)
  return ⟨← Text.unsigned? index, String.ofList field, String.ofList text⟩

/-- The fields of the members with one number; the last one of a name counts. -/
def fields (members : List Member) (index : Nat) : Fields String :=
  Fields.ofList ((members.filter (·.index = index)).map fun m => (m.field, m.text))

def indexes (members : List Member) : List Nat :=
  ((members.map (·.index)).mergeSort (· ≤ ·)).eraseReps

def toFields (keyField valueField : String) (members : List Member) : Fields Value :=
  Fields.ofList <| (indexes members).filterMap fun i => do
    let key ← (fields members i).get? keyField
    let text ← (fields members i).get? valueField
    return (key, .text text)

end Member

end Orchestration
