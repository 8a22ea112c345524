import Orchestration.Proofs.References.Names
import Orchestration.Proofs.Validation.Checks

namespace Orchestration

theorem mapM_eq_ok {α β : Type} {f : α → Result β} {g : α → β} {as : List α}
    (h : ∀ a ∈ as, f a = .ok (g a)) : as.mapM f = .ok (as.map g) :=
  Run.mapM_eq_ok_iff.2 (List.forall₂_map_right_iff.2 (List.forall₂_same.2 h))

namespace ResourceDefinition

variable {stack : Stack} {d : ResourceDefinition} {names : List String}

theorem hasResource_of_referred {part : String} {s : Option Snippet}
    (hs : ∀ content ∈ s, content.Every stack.Passes) :
    ∀ name ∈ d.referred part s, stack.template.hasResource name = true := by
  intro name hn
  obtain ⟨content, hcontent, hn⟩ := List.mem_flatMap.1 hn
  obtain ⟨dependency, hd, rfl⟩ := List.mem_map.1 hn
  have htargets := Snippet.Every.imp (fun _ _ => Stack.Passes.hasResource)
    (hs content (Option.mem_toList.1 hcontent))
  exact (Snippet.every_target_iff (stack.template.hasResource · = true) content _).1 htargets
    dependency hd

theorem Checked.hasResource (hc : d.Checked stack) (h : d.requires = .ok names) :
    ∀ name ∈ names, stack.template.hasResource name = true := by
  intro name hn
  obtain hn | hn | hn := (mem_requires h).1 hn
  · exact hc.dependsOn name hn
  · exact hasResource_of_referred hc.properties name hn
  · exact hasResource_of_referred hc.metadata name hn

theorem dependencies_eq_ok (h : d.requires = .ok names)
    (hn : ∀ name ∈ names, stack.template.hasResource name = true) :
    d.dependencies stack = .ok (names.filterMap stack.resources.get?) := by
  unfold dependencies
  refine (Run.ok_bind h).trans ((Run.ok_bind (mapM_eq_ok (g := stack.resources.get?)
    fun name hname => ?_)).trans ?_)
  · cases stack.resources.get? name with
    | some r => rfl
    | none => simp only [hn name hname, ↓reduceIte]; rfl
  · simp only [List.filterMap_map]
    rfl

end ResourceDefinition

namespace Stack

/-- In a stack without mistakes every definition, enabled or not, requires only resources of the
template, and its dependencies are those of them that are live, in order and each once. -/
theorem dependencies_of_validate (stack : Stack) (memo : Memo)
    (h : (stack.validate.run memo).1 = .ok ()) :
    ∃ definitions, stack.template.resourceDefinitions stack.id = .ok definitions ∧
      ∀ e ∈ definitions, ∃ names, e.2.requires = .ok names ∧
        (∀ name ∈ names, stack.template.hasResource name = true) ∧ names.Pairwise (· < ·) ∧
        e.2.dependencies stack = .ok (names.filterMap stack.resources.get?) := by
  obtain ⟨definitions, hdefinitions, hchecked⟩ := definitions_of_validate h
  refine ⟨definitions, hdefinitions, fun e he => ?_⟩
  obtain ⟨names, hnames⟩ := (hchecked e he).requires
  have hresources := (hchecked e he).hasResource hnames
  exact ⟨names, hnames, hresources, ResourceDefinition.pairwise_requires hnames,
    ResourceDefinition.dependencies_eq_ok hnames hresources⟩

theorem dependencies_of_server :
    ∃ t stack, Template.ofValue (.map [("heat_template_version", .text "2016-10-14"),
        ("resources", .map [
          ("server", .map [("type", .text "Server"), ("depends_on", .text "volume"),
            ("properties", .map [("net", .map [("get_resource", .text "net")])])]),
          ("net", .map [("type", .text "Net"), ("condition", .bool false)]),
          ("volume", .map [("type", .text "Volume")])])]) = .ok t ∧
      make ⟨"s"⟩ "s" t [] (StaticResources.toResources
        [("volume", ⟨"volume", .text "v", [], true⟩)]) = .ok stack ∧
      (stack.validate.run []).1 = .ok () ∧
      ∃ definitions, stack.template.resourceDefinitions stack.id = .ok definitions ∧
        ∀ e ∈ definitions, ∃ names, e.2.requires = .ok names ∧
          (∀ name ∈ names, stack.template.hasResource name = true) ∧ names.Pairwise (· < ·) ∧
          e.2.dependencies stack = .ok (names.filterMap stack.resources.get?) :=
  ⟨_, _, rfl, rfl, rfl, dependencies_of_validate _ [] rfl⟩

end Stack

end Orchestration
