import Orchestration.Properties.View
import Orchestration.Stack.Enabled

namespace Orchestration

inductive Subject
  | properties (resource : String)
  | output (name : String)

structure RenderError where
  subject : Option Subject
  error : Error

abbrev Rendering := ExceptT RenderError (StateM Memo)

namespace Rendering

def ofEvaluation {α : Type} (subject : Option Subject) (x : Evaluation α) : Rendering α :=
  x.adapt (⟨subject, ·⟩)

end Rendering

namespace Stack

variable (stack : Stack)

def renderResource (d : ResourceDefinition) : Rendering Value := do
  let properties ← .ofEvaluation none (Properties.ofSnippet stack d.properties : Result Properties)
  let read := ((PropertyView.mk properties none).readAll.run .empty).1
  let fields ← .ofEvaluation (some (.properties d.name)) read
  return .map [("type", .text d.type), ("properties", .map fields)]

def renderResources : Rendering (Fields Value) := do
  (← .ofEvaluation none stack.resourceDefinitions).mapM fun (name, d) => do
    return (name, ← stack.renderResource d)

def renderOutputs : Rendering (Fields Value) := do
  (← .ofEvaluation none stack.outputs).mapM fun (name, o) => do
    return (name, ← .ofEvaluation (some (.output name)) (stack.resolve o.value))

end Stack

end Orchestration
