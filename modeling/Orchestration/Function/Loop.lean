import Orchestration.Error
import Orchestration.Text.Substitution

namespace Orchestration

structure Loop where
  placeholder : String
  texts : List String

namespace Loop

def choice (l : Loop) (text : String) : Text.Placeholder := ⟨l.placeholder.toList, text.toList⟩

/-- Every combination of one text for each loop, the first loop varying slowest. -/
def combinations : List Loop → List (List Text.Placeholder)
  | [] => [[]]
  | l :: ls => l.texts.flatMap fun text => (combinations ls).map (l.choice text :: ·)

def zipped? (loops : List Loop) : Option (List (List Text.Placeholder)) :=
  let length := (loops.head?.map (·.texts.length)).getD 0
  if loops.all (·.texts.length = length) then
    some ((List.range length).map fun i => loops.map fun l => l.choice (l.texts.getD i ""))
  else none

def write (ps : List Text.Placeholder) (s : String) : String :=
  String.ofList (Text.replaceInTurn ps s.toList)

mutual

def copy (ps : List Text.Placeholder) : Value → Value
  | .text s => .text (write ps s)
  | .scalar s => .scalar s
  | .list items => .list (copyItems ps items)
  | .map fields => .map (Fields.ofList (copyFields ps fields))

def copyItems (ps : List Text.Placeholder) : List Value → List Value
  | [] => []
  | v :: vs => copy ps v :: copyItems ps vs

def copyFields (ps : List Text.Placeholder) : List (String × Value) → List (String × Value)
  | [] => []
  | (k, v) :: rest => (write ps k, copy ps v) :: copyFields ps rest

end

def ofEntry (function placeholder : String) : Value → Result Loop
  | .list values => do
    let texts ← values.mapM fun v =>
      match v.plain? with
      | some text => pure text
      | none => fault (.call function (.loopValue v))
    return ⟨placeholder, texts⟩
  | _ => fault (.call function .loopList)

def copies (function : String) (loops : Fields Value) (template : Value) (permutations : Bool) :
    Result Value := do
  let loops ← loops.mapM fun (placeholder, values) => ofEntry function placeholder values
  let chosen ←
    if permutations then pure (combinations loops)
    else match zipped? loops with
      | some chosen => pure chosen
      | none => fault (.call function .loopLengths)
  return .list (chosen.map fun ps => copy ps template)

end Loop

end Orchestration
