import Orchestration.Definition.Basic

namespace Orchestration

structure Dependency where
  resource : String
  path : String

namespace Dependency

def join (path key : String) : String := if path.isEmpty then key else s!"{path}.{key}"

end Dependency

namespace Snippet

def target? : Intrinsic → Snippet → Option String
  | .resource, .text name => some name
  | .attributeOf, .list (.text name :: _) => some name
  | _, _ => none

def targetAttribute? : Intrinsic → Snippet → Option (String × String)
  | .attributeOf, .list (.text name :: .text field :: _) => some (name, field)
  | _, _ => none

mutual

/-- The references in a snippet, those in the arguments of a call before its own. -/
def dependencies : Snippet → String → List Dependency
  | .scalar _, _ => []
  | .list items, path => itemDependencies items path 0
  | .map fields, path => fieldDependencies fields path
  | .call c args, path =>
    let path := Dependency.join path c.name
    args.dependencies path ++ ((target? c.fn args).map (⟨·, path⟩)).toList

def itemDependencies : List Snippet → String → Nat → List Dependency
  | [], _, _ => []
  | s :: rest, path, i => s.dependencies s!"{path}[{i}]" ++ itemDependencies rest path (i + 1)

def fieldDependencies : List (String × Snippet) → String → List Dependency
  | [], _ => []
  | (k, s) :: rest, path =>
    s.dependencies (Dependency.join path k) ++ fieldDependencies rest path

end

mutual

def attributes : Snippet → List (String × String)
  | .scalar _ => []
  | .list items => itemAttributes items
  | .map fields => fieldAttributes fields
  | .call c args => args.attributes ++ (targetAttribute? c.fn args).toList

def itemAttributes : List Snippet → List (String × String)
  | [] => []
  | s :: rest => s.attributes ++ itemAttributes rest

def fieldAttributes : List (String × Snippet) → List (String × String)
  | [] => []
  | (_, s) :: rest => s.attributes ++ fieldAttributes rest

end

mutual

def attributesOf (resource : String) : Snippet → List String
  | .scalar _ => []
  | .list items => itemAttributesOf resource items
  | .map fields => fieldAttributesOf resource fields
  | .call c args =>
    args.attributesOf resource ++
      match targetAttribute? c.fn args with
      | some (name, field) => if name = resource then [field] else []
      | none => []

def itemAttributesOf (resource : String) : List Snippet → List String
  | [] => []
  | s :: rest => s.attributesOf resource ++ itemAttributesOf resource rest

def fieldAttributesOf (resource : String) : List (String × Snippet) → List String
  | [] => []
  | (_, s) :: rest => s.attributesOf resource ++ fieldAttributesOf resource rest

end

end Snippet

def sortedNames (names : List String) : List String := (names.mergeSort (· ≤ ·)).eraseReps

namespace ResourceDefinition

/-- The names of all resources that a definition requires, in order. An external resource cannot
have explicit dependencies. -/
def requires (d : ResourceDefinition) : Result (List String) := do
  if let some id := d.externalId then
    unless d.dependsOn.isEmpty do
      let id := id.canonical
      throw (.bare (.externalDependency d.type (id.text?.getD id.shortText)))
  let referred (part : String) (s : Option Snippet) : List String :=
    s.toList.flatMap fun s => (s.dependencies s!"{d.name}.{part}").map (·.resource)
  return sortedNames
    (d.dependsOn ++ referred "properties" d.properties ++ referred "metadata" d.metadata)

end ResourceDefinition

end Orchestration
