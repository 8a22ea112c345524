import Orchestration.Proofs.Fields
import Orchestration.Proofs.Snippets.Reading
import Orchestration.Stack.Basic

namespace Orchestration

namespace Stack

def Proper (stack : Stack) : Prop := stack.template.conditions stack.id = .ok stack.conditions

variable {stack : Stack}

theorem proper_of_make {id : StackId} {name : String} {t : Template} {given : Fields Value}
    {resources : Resources} (h : make id name t given resources = .ok stack) : stack.Proper := by
  obtain ⟨parameters, -, h⟩ := Run.exists_of_bind_ok h
  obtain ⟨conditions, hconditions, h⟩ := Run.exists_of_bind_ok h
  cases h
  exact hconditions

theorem Proper.withParent (h : stack.Proper) (parent : ResourceDefinition) :
    (stack.withParent parent).Proper := h

theorem Proper.condition (h : stack.Proper) (name : String) :
    Option.Rel (fun v s => stack.template.snippet .forConditions stack.id v = .ok s)
      (stack.template.condition? name) (stack.conditions.get? name) := by
  refine Fields.rel_get?_of_mapM h (fun name definition e he => ?_) name
  obtain ⟨s, hs, he⟩ := Run.exists_of_bind_ok he
  cases he
  exact ⟨rfl, Run.located_eq_ok_iff.1 hs⟩

end Stack

namespace Template

variable {t : Template} {stack : StackId}

def Holds (t : Template) (stack : StackId) (p : Parser) (s : Snippet) : Prop :=
  ∃ v, t.snippet p stack v = .ok s

theorem holds_of_part {raw : Fields Value} {path : Breadcrumb} {mustBeMap : Bool}
    {key : Option String} {found : Option Snippet}
    (h : t.part stack raw path mustBeMap key = .ok found) :
    ∀ s ∈ found, t.Holds stack .ordinary s := by
  unfold part at h
  generalize given? raw key = given at h
  cases given with
  | none =>
    cases h
    nofun
  | some e =>
    obtain ⟨s, hs, h⟩ := Run.exists_of_map_ok h
    obtain ⟨s', hs', h'⟩ := Run.exists_of_bind_ok (Run.located_eq_ok_iff.1 hs)
    have hsame : s = s' := by
      dsimp only at h'
      split at h'
      · cases h'
      · cases h'
        rfl
    rintro _ ⟨⟩
    cases h
    exact ⟨e.2, hsame ▸ hs'⟩

structure HoldsParts (t : Template) (stack : StackId) (d : ResourceDefinition) : Prop where
  properties : ∀ s ∈ d.properties, t.Holds stack .ordinary s
  metadata : ∀ s ∈ d.metadata, t.Holds stack .ordinary s
  updatePolicy : ∀ s ∈ d.updatePolicy, t.Holds stack .ordinary s
  externalId : ∀ s ∈ d.externalId, t.Holds stack .ordinary s

theorem exists_of_resourceDefinition {name : String} {raw : Value} {d : ResourceDefinition}
    (h : t.resourceDefinition stack name raw = .ok d) :
    ∃ (base : ResourceDefinition) (externalId : Option Snippet),
      d = externalId.elim base base.withExternalId ∧ base.externalId = none ∧
      base.isFrozen = false ∧ t.HoldsParts stack base ∧
      (∃ fields key path, t.condition stack fields key path = .ok base.condition) ∧
      ∀ s ∈ externalId, t.Holds stack .ordinary s := by
  unfold resourceDefinition at h
  dsimp only at h
  split at h
  · split at h
    · cases h
    · obtain ⟨type, -, h⟩ := Run.exists_of_bind_ok h
      obtain ⟨properties, hproperties, h⟩ := Run.exists_of_bind_ok h
      obtain ⟨metadata, hmetadata, h⟩ := Run.exists_of_bind_ok h
      obtain ⟨updatePolicy, hpolicy, h⟩ := Run.exists_of_bind_ok h
      obtain ⟨externalId, hexternal, h⟩ := Run.exists_of_bind_ok h
      obtain ⟨dependsOn, -, h⟩ := Run.exists_of_bind_ok h
      obtain ⟨givenPolicy, -, h⟩ := Run.exists_of_bind_ok h
      obtain ⟨description, -, h⟩ := Run.exists_of_bind_ok h
      obtain ⟨condition, hcondition, h⟩ := Run.exists_of_bind_ok h
      let base : ResourceDefinition :=
        { name := name, type, properties, metadata, dependsOn, givenPolicy, updatePolicy, description,
          condition }
      refine ⟨base, externalId, ?_, rfl, rfl, ?_, ⟨_, _, _, hcondition⟩, holds_of_part hexternal⟩
      · cases externalId <;> exact (Except.ok.inj h).symm
      · exact ⟨holds_of_part hproperties, holds_of_part hmetadata, holds_of_part hpolicy, nofun⟩
  · cases h

theorem holdsParts_of_resourceDefinition {name : String} {raw : Value} {d : ResourceDefinition}
    (h : t.resourceDefinition stack name raw = .ok d) : t.HoldsParts stack d := by
  obtain ⟨base, externalId, rfl, -, -, hbase, -, hexternal⟩ := exists_of_resourceDefinition h
  cases externalId with
  | none => exact hbase
  | some id => exact { hbase with externalId := hexternal }

theorem holds_of_outputDefinition {name : String} {raw : Value} {o : OutputDefinition}
    (h : t.outputDefinition stack name raw = .ok o) : t.Holds stack .ordinary o.value := by
  unfold outputDefinition at h
  dsimp only at h
  split at h
  · split at h
    · cases h
    · split at h
      · next v _ =>
        obtain ⟨value, hvalue, h⟩ := Run.exists_of_bind_ok h
        obtain ⟨_, -, h⟩ := Run.exists_of_bind_ok h
        cases h
        exact ⟨v, Run.located_eq_ok_iff.1 hvalue⟩
      · obtain ⟨value, hvalue, h⟩ := Run.exists_of_bind_ok h
        obtain ⟨_, -, h⟩ := Run.exists_of_bind_ok h
        cases h
        cases hvalue
        exact ⟨.null, rfl⟩
  · cases h

end Template

end Orchestration
