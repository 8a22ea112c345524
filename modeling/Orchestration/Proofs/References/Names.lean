import Orchestration.Definition.Dependency
import Orchestration.Proofs.Run
import Orchestration.Proofs.Sorting

namespace Orchestration

theorem mem_sortedNames {name : String} {names : List String} :
    name ∈ sortedNames names ↔ name ∈ names := by
  rw [sortedNames, Sorting.mem_eraseReps, List.mem_mergeSort]

theorem pairwise_sortedNames (names : List String) :
    (sortedNames names).Pairwise (· < ·) := by
  apply Sorting.pairwise_eraseReps
  have h : (names.mergeSort (· ≤ ·)).Pairwise (decide <| · ≤ ·) :=
    List.pairwise_mergeSort (by simpa using fun a b c => String.le_trans)
      (by simpa using String.le_total) names
  simpa using h

namespace ResourceDefinition

variable {d : ResourceDefinition} {names : List String}

def referred (d : ResourceDefinition) (part : String) (s : Option Snippet) : List String :=
  s.toList.flatMap fun s => (s.dependencies s!"{d.name}.{part}").map (·.resource)

theorem requires_eq_ok (h : d.requires = .ok names) :
    names = sortedNames (d.dependsOn ++ d.referred "properties" d.properties ++
      d.referred "metadata" d.metadata) := by
  unfold requires at h
  split at h
  · split at h
    · exact (Except.ok.inj h).symm
    · cases h
  · exact (Except.ok.inj h).symm

theorem pairwise_requires (h : d.requires = .ok names) : names.Pairwise (· < ·) := by
  rw [requires_eq_ok h]
  exact pairwise_sortedNames _

theorem mem_requires (h : d.requires = .ok names) {name : String} :
    name ∈ names ↔ name ∈ d.dependsOn ∨ name ∈ d.referred "properties" d.properties ∨
      name ∈ d.referred "metadata" d.metadata := by
  rw [requires_eq_ok h, mem_sortedNames, List.mem_append, List.mem_append, or_assoc]

theorem mem_referred {part : String} {s : Option Snippet} {content : Snippet}
    (hs : s = some content) {dependency : Dependency} (h : dependency ∈ content.dependencies s!"{d.name}.{part}") :
    dependency.resource ∈ d.referred part s := by
  subst hs
  exact List.mem_flatMap.2 ⟨content, by simp, List.mem_map.2 ⟨dependency, h, rfl⟩⟩

end ResourceDefinition

end Orchestration
