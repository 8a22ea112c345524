import Orchestration.Migration.Rule

namespace Orchestration

structure Migration where
  /-- The rules in the order of their targets, those with one target in the order of their kinds. -/
  rules : List Migration.Rule
  /-- Whether clients may be asked. -/
  clientResolve : Bool

namespace Migration

def Rule.runsBefore (a b : Rule) : Bool := a.kind.rank ≤ b.kind.rank

def Rule.standsBefore (a b : Rule) : Bool :=
  a.target < b.target || a.target = b.target && a.runsBefore b

def ofRules (rules : List Rule) (clientResolve : Bool) : Migration :=
  ⟨rules.mergeSort Rule.standsBefore, clientResolve⟩

theorem ofRules_of_pairwise {rules : List Rule} (h : rules.Pairwise (Rule.standsBefore · ·))
    (clientResolve : Bool) : ofRules rules clientResolve = ⟨rules, clientResolve⟩ :=
  congrArg (Migration.mk · clientResolve) (List.mergeSort_of_pairwise h)

def ofDeclarations (declarations : List Declaration) (clientResolve : Bool) : Result Migration :=
  return ofRules (← declarations.mapM Declaration.check) clientResolve

variable (m : Migration)

/-- The rules that run when a property is read, by kind. -/
def rulesFor (key : String) : List Rule :=
  (m.rules.filter (·.property = key)).mergeSort Rule.runsBefore

def movedFrom (key : String) : List String :=
  (m.rules.filter (·.nestedSource? = some key)).map (·.property)

def affects (key : String) : Bool :=
  m.rules.any (·.property = key) || m.rules.any (·.nestedSource? = some key)

def masks (key : String) : Bool := m.rules.any (·.movedProperty? = some key)

def targets : List String := (m.rules.filter (·.kind ≠ .delete)).map (·.property)

end Migration

end Orchestration
