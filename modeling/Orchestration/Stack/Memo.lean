import Orchestration.Stack.Evaluation

/-!
The truth of named conditions. A memo holds the conditions that are known and those whose
evaluation is under way; a condition that is needed while it is under way is circular. Errors leave
the memo as far as it has come, without the conditions they went through.
-/

namespace Orchestration

inductive Status
  | inProgress
  | resolved (b : Bool)
  deriving DecidableEq

abbrev Memo := Fields Status

abbrev Evaluation := ExceptT Error (StateM Memo)

namespace Evaluation

/-- Evaluate a condition while it counts as under way, and note its truth if it has one. -/
def tracked (name : String) (truth : Evaluation Bool) : Evaluation Bool :=
  ExceptT.mk do
    modify fun memo => memo.insert name .inProgress
    let outcome ← truth.run
    match outcome with
    | .ok b => modify fun memo => memo.insert name (.resolved b)
    | .error _ => modify fun memo => memo.erase name
    return outcome

def retrieve (stack : Stack) (name : String) (new : Snippet → Evaluation Bool) : Evaluation Bool := do
  let some definition := stack.conditions.get? name | fault (.conditionName name)
  match (← get).get? name with
  | some (.resolved b) => return b
  | some .inProgress => throw (.bare (.circularCondition name))
  | none => new definition

/-- The truth of a named condition. Every condition under way is another one, so there are never
more evaluations inside each other than conditions, and one that finds no condition or an end. -/
def evaluate (stack : Stack) : (fuel : Nat) → String → Evaluation Bool
  | 0, name => retrieve stack name fun _ => throw (.bare (.circularCondition name))
  | fuel + 1, name => retrieve stack name fun definition =>
    tracked name ((truth stack name definition).run (evaluate stack fuel))

end Evaluation

namespace Stack

variable (stack : Stack)

def evaluate (name : String) : Evaluation Bool :=
  Evaluation.evaluate stack stack.conditions.length name

def resolve (s : Snippet) : Evaluation Value := (Evaluation.resolve stack s).run stack.evaluate

def value (s : Snippet) : Result Value := ((stack.resolve s).run []).1

def isEnabled : Option Snippet → Evaluation Bool
  | none => return true
  | some s => (Evaluation.Operand.isEnabled ⟨s, fun _ => Evaluation.resolve stack s⟩).run stack.evaluate

end Stack

end Orchestration
