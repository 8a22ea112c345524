import Orchestration.Proofs.Conditions.Circularity
import Orchestration.Proofs.Snippets.Calls

namespace Orchestration

namespace Stack

structure Passes (stack : Stack) (c : Call) (args : Snippet) : Prop where
  own : stack.checkOwn c = .ok ()
  offered : checkOffered c = .ok ()
  referred : stack.checkCall c args = .ok ()

variable {stack : Stack} {c : Call} {args : Snippet}

theorem checkResource_eq_ok {name : String} (h : stack.checkResource c name = .ok ()) :
    stack.template.hasResource name = true := by
  unfold checkResource at h
  split at h
  · assumption
  · cases h

theorem Passes.hasResource (h : stack.Passes c args) :
    ∀ name ∈ Snippet.target? c.fn args, stack.template.hasResource name = true := by
  intro name hn
  have hc := h.referred
  unfold checkCall at hc
  obtain ⟨hf, rfl⟩ | ⟨hf, rest, rfl⟩ := Snippet.target?_eq_some hn
  · rw [hf] at hc
    obtain ⟨_, hname, -⟩ := Run.exists_of_bind_ok hc
    exact checkResource_eq_ok hname
  · rw [hf] at hc
    obtain ⟨_, hname, -⟩ := Run.exists_of_bind_ok hc
    exact checkResource_eq_ok hname

end Stack

namespace Snippet

variable (stack : Stack)

mutual

theorem every_passes_of_validate : ∀ (s : Snippet) (path : Breadcrumb),
    s.validate stack path = .ok () → Every stack.Passes s
  | .scalar _, _, _ => trivial
  | .list items, path, h => everyItem_passes_of_validate items path 0 h
  | .map fields, path, h => everyField_passes_of_validate fields path h
  | .call c args, path, h => by
    obtain ⟨_, hown, h⟩ := Run.exists_of_bind_ok h
    obtain ⟨_, hoffered, h⟩ := Run.exists_of_bind_ok (Run.located_eq_ok_iff.1 h)
    obtain ⟨_, hargs, hcall⟩ := Run.exists_of_bind_ok h
    exact ⟨⟨hown, hoffered, hcall⟩, every_passes_of_validate args [] hargs⟩

theorem everyItem_passes_of_validate : ∀ (items : List Snippet) (path : Breadcrumb) (i : Nat),
    validateItems stack items path i = .ok () → EveryItem stack.Passes items
  | [], _, _, _ => trivial
  | s :: rest, path, i, h => by
    obtain ⟨_, hs, hrest⟩ := Run.exists_of_bind_ok h
    exact ⟨every_passes_of_validate s _ hs, everyItem_passes_of_validate rest path (i + 1) hrest⟩

theorem everyField_passes_of_validate : ∀ (fields : List (String × Snippet)) (path : Breadcrumb),
    validateFields stack fields path = .ok () → EveryField stack.Passes fields
  | [], _, _ => trivial
  | (k, s) :: rest, path, h => by
    obtain ⟨_, hs, hrest⟩ := Run.exists_of_bind_ok h
    exact ⟨every_passes_of_validate s _ hs, everyField_passes_of_validate rest path hrest⟩

end

end Snippet

namespace ResourceDefinition

variable {stack : Stack} {d : ResourceDefinition}

/-- What a definition without mistakes comes with. Its condition is not looked into. -/
structure Checked (stack : Stack) (d : ResourceDefinition) : Prop where
  properties : ∀ s ∈ d.properties, s.Every stack.Passes
  metadata : ∀ s ∈ d.metadata, s.Every stack.Passes
  updatePolicy : ∀ s ∈ d.updatePolicy, s.Every stack.Passes
  externalId : ∀ s ∈ d.externalId, s.Every stack.Passes
  dependsOn : ∀ name ∈ d.dependsOn, stack.template.hasResource name = true
  requires : ∃ names, d.requires = .ok names

theorem every_passes_of_validatePart {path : Breadcrumb} {key : String} {part : Option Snippet}
    (h : validatePart stack path key part = .ok ()) : ∀ s ∈ part, s.Every stack.Passes := by
  rintro s ⟨⟩
  exact s.every_passes_of_validate stack _ h

theorem checked_of_validate (h : d.validate stack = .ok ()) : d.Checked stack := by
  unfold validate at h
  obtain ⟨_, hproperties, h⟩ := Run.exists_of_bind_ok h
  obtain ⟨_, hmetadata, h⟩ := Run.exists_of_bind_ok h
  obtain ⟨_, hpolicy, h⟩ := Run.exists_of_bind_ok h
  obtain ⟨_, hexternal, h⟩ := Run.exists_of_bind_ok h
  have hnames {path : Breadcrumb} (h : discard (located path d.requires) = .ok ()) :
      ∃ names, d.requires = .ok names := by
    obtain ⟨names, hnames, -⟩ := Run.exists_of_map_ok h
    exact ⟨names, Run.located_eq_ok_iff.1 hnames⟩
  dsimp only at h
  split at h
  · cases h
  · next hfind =>
    refine ⟨every_passes_of_validatePart hproperties, every_passes_of_validatePart hmetadata,
      every_passes_of_validatePart hpolicy, every_passes_of_validatePart hexternal, ?_, ?_⟩
    · simpa using List.find?_eq_none.1 (Option.eq_none_iff_forall_ne_some.2 hfind)
    · split at h
      · split at h
        · exact hnames h
        · cases h
      · exact hnames h

end ResourceDefinition

namespace Stack

variable {stack : Stack} {memo : Memo}

structure CheckedDefinition (stack : Stack) (definition : Snippet) : Prop where
  isCondition : (∃ b, definition = .bool b) ∨ (∃ c args, definition = .call c args) ∨
    ∃ other, definition = .text other ∧ stack.conditions.contains other = true
  passes : definition.Every stack.Passes

theorem checkedDefinition_of_check {name : String} {definition : Snippet}
    (h : stack.checkDefinition name definition = .ok ()) : stack.CheckedDefinition definition := by
  cases definition with
  | scalar s =>
    cases s with
    | bool b => exact ⟨.inl ⟨b, rfl⟩, trivial⟩
    | text other =>
      refine ⟨.inr (.inr ⟨other, rfl, ?_⟩), trivial⟩
      unfold checkDefinition at h
      dsimp only at h
      split at h
      · assumption
      · cases h
    | _ => cases h
  | call c args =>
    exact ⟨.inr (.inl ⟨c, args, rfl⟩), (Snippet.call c args).every_passes_of_validate stack _ h⟩
  | _ => cases h

theorem checkedDefinitions_of_validateConditions
    (h : (stack.validateConditions.run memo).1 = .ok ()) :
    ∀ e ∈ stack.conditions, stack.CheckedDefinition e.2 := by
  intro e he
  obtain ⟨_, _, hchecks, -⟩ := Run.exists_of_bind (Prod.ext h rfl)
  obtain ⟨_, _, hcheck⟩ := Run.exists_of_forM hchecks e he
  exact checkedDefinition_of_check (Run.exists_of_lift hcheck).1

theorem conditions_of_validate (h : (stack.validate.run memo).1 = .ok ()) :
    (stack.validateConditions.run memo).1 = .ok () := by
  obtain ⟨_, mid, hconditions, -⟩ := Run.exists_of_bind (Prod.ext h rfl)
  rw [hconditions]

/-- Validation has gone through the definitions of all resources, enabled or not. -/
theorem definitions_of_validate (h : (stack.validate.run memo).1 = .ok ()) :
    ∃ definitions, stack.template.resourceDefinitions stack.id = .ok definitions ∧
      ∀ e ∈ definitions, e.2.Checked stack := by
  obtain ⟨_, _, -, h⟩ := Run.exists_of_bind (Prod.ext h rfl)
  obtain ⟨definitions, _, hdefinitions, h⟩ := Run.exists_of_bind h
  obtain ⟨_, _, hchecks, -⟩ := Run.exists_of_bind h
  refine ⟨definitions, (Run.exists_of_lift hdefinitions).1, fun e he => ?_⟩
  obtain ⟨_, _, hcheck⟩ := Run.exists_of_forM hchecks e he
  exact ResourceDefinition.checked_of_validate (Run.exists_of_lift hcheck).1

theorem outputs_of_validate (h : (stack.validate.run memo).1 = .ok ()) :
    ∃ outputs, stack.template.outputs stack.id = .ok outputs ∧
      ∀ e ∈ outputs, e.2.value.Every stack.Passes := by
  obtain ⟨_, _, -, h⟩ := Run.exists_of_bind (Prod.ext h rfl)
  obtain ⟨_, _, -, h⟩ := Run.exists_of_bind h
  obtain ⟨_, _, -, h⟩ := Run.exists_of_bind h
  obtain ⟨outputs, _, houtputs, hchecks⟩ := Run.exists_of_bind h
  refine ⟨outputs, (Run.exists_of_lift houtputs).1, fun e he => ?_⟩
  obtain ⟨_, _, hcheck⟩ := Run.exists_of_forM hchecks e he
  exact e.2.value.every_passes_of_validate stack _ (Run.exists_of_lift hcheck).1

end Stack

end Orchestration
