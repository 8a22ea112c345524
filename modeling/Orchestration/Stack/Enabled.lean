import Orchestration.Stack.Validation

namespace Orchestration

structure Requirements where
  requires : List String
  attributes : List String

namespace Stack

variable (stack : Stack)

def enabled {α : Type} (condition : α → Option Snippet) (entries : Fields α) :
    Evaluation (Fields α) := entries.filterM fun e => stack.isEnabled (condition e.2)

def resourceDefinitions : Evaluation (Fields ResourceDefinition) := do
  stack.enabled (·.condition) (← stack.template.resourceDefinitions stack.id)

def outputs : Evaluation (Fields OutputDefinition) := do
  stack.enabled (·.condition) (← stack.template.outputs stack.id)

def dependencyMap : Evaluation (Fields (List String)) := do
  (← stack.resourceDefinitions).mapM fun (name, d) => return (name, ← d.requires)

def consumedAttributes (resource : String) : Evaluation (List String) := do
  let definitions ← stack.resourceDefinitions
  let outputs ← stack.outputs
  let parts := (definitions.flatMap fun (_, d) => d.properties.toList ++ d.metadata.toList) ++
    outputs.map fun (_, o) => o.value
  return sortedNames (parts.flatMap (·.attributesOf resource))

def requirements : Evaluation (Fields Requirements) := do
  (← stack.dependencyMap).mapM fun (name, requires) => do
    return (name, ⟨requires, ← stack.consumedAttributes name⟩)

end Stack

end Orchestration
