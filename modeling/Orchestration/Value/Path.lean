import Orchestration.Value.Basic

namespace Orchestration.Value

def at? : Value → Value → Option Value
  | .map fields, .text key => Fields.get? fields key
  | .list items, .integer i => if 0 ≤ i.toInt then items[i.toInt.toNat]? else none
  | .list items, .text index => (Text.unsigned? index.toList).bind (items[·]?)
  | _, _ => none

def select? (v : Value) (path : List Value) : Option Value := path.foldlM at? v

@[simp] theorem select?_nil (v : Value) : v.select? [] = some v := rfl

end Orchestration.Value
