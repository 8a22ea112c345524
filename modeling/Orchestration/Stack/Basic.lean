import Orchestration.Resource.Live
import Orchestration.Template.Definitions
import Orchestration.Template.Parameters

namespace Orchestration

structure Stack where
  id : StackId
  name : String
  template : Template
  parameters : Parameters
  resources : Resources
  conditions : Fields Snippet
  /-- The frozen definition of the resource that the stack stands for. -/
  parent : Option ResourceDefinition

namespace Stack

def make (id : StackId) (name : String) (t : Template) (given : Fields Value)
    (resources : Resources) : Result Stack := do
  let parameters ← Parameters.make t given name id
  let conditions ← t.conditions id
  return ⟨id, name, t, parameters, resources, conditions, none⟩

def withParent (s : Stack) (parent : ResourceDefinition) : Stack := { s with parent := some parent }

def checkOwn (s : Stack) (c : Call) : Result Unit :=
  if c.stack = s.id then pure ()
  else .error (.invariant (.foreignCall c.name c.stack.label s.id.label))

end Stack

end Orchestration
