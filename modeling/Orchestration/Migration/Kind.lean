namespace Orchestration.Migration

inductive Kind
  | add
  | replace
  | resolve
  | delete
  deriving DecidableEq

namespace Kind

def name : Kind → String
  | add => "Add"
  | replace => "Replace"
  | resolve => "Resolve"
  | delete => "Delete"

def rank : Kind → Nat
  | add => 0
  | replace => 1
  | resolve => 2
  | delete => 3

end Kind

end Orchestration.Migration
