import Mathlib.Logic.Relation
import Orchestration.Definition.Freeze
import Orchestration.Proofs.Snippets.Sections

/-!
What is done to definitions, step by step. Freezing leaves no calls, but a definition that is frozen
already is not looked at again: a call that it is given afterwards stays.
-/

namespace Orchestration

namespace Snippet

mutual

theorem isPlain_ofValue : ∀ v : Value, (ofValue v).isPlain = true
  | .scalar _ => rfl
  | .list items => isPlainItems_ofItems items
  | .map fields => isPlainFields_ofFields fields

theorem isPlainItems_ofItems : ∀ items : List Value, isPlainItems (ofItems items) = true
  | [] => rfl
  | v :: rest => by simp [ofItems, isPlainItems, isPlain_ofValue v, isPlainItems_ofItems rest]

theorem isPlainFields_ofFields :
    ∀ fields : List (String × Value), isPlainFields (ofFields fields) = true
  | [] => rfl
  | (_, v) :: rest => by
    simp [ofFields, isPlainFields, isPlain_ofValue v, isPlainFields_ofFields rest]

end

end Snippet

namespace ResourceDefinition

open Relation (ReflTransGen)

inductive Begins : ResourceDefinition → Prop
  | new (name type : String) : Begins { name, type }
  | read {t : Template} {stack : StackId} {name : String} {raw : Value} {d : ResourceDefinition}
      (h : t.resourceDefinition stack name raw = .ok d) : Begins d

/-- What programs make of a definition in one step. A step that fails makes nothing of it. -/
inductive Becomes (d : ResourceDefinition) : ResourceDefinition → Prop
  | withProperties (s : Snippet) : Becomes d (d.withProperties s)
  | withMetadata (s : Snippet) : Becomes d (d.withMetadata s)
  | withDependsOn (names : List String) : Becomes d (d.withDependsOn names)
  | withDeletionPolicy (policy : DeletionPolicy) : Becomes d (d.withDeletionPolicy policy)
  | withUpdatePolicy (s : Snippet) : Becomes d (d.withUpdatePolicy s)
  | withDescription (text : String) : Becomes d (d.withDescription text)
  | withExternalId (s : Snippet) : Becomes d (d.withExternalId s)
  | withCondition (s : Snippet) : Becomes d (d.withCondition s)
  | freeze {stack : Stack} {o : Overrides} {memo after : Memo} {f : ResourceDefinition}
      (h : (d.freeze stack o).run memo = (.ok f, after)) : Becomes d f
  | reparse {stack : Stack} {f : ResourceDefinition} (h : d.reparse stack = .ok f) : Becomes d f

structure Plain (d : ResourceDefinition) : Prop where
  properties : ∀ s ∈ d.properties, s.isPlain = true
  metadata : ∀ s ∈ d.metadata, s.isPlain = true
  updatePolicy : ∀ s ∈ d.updatePolicy, s.isPlain = true
  externalId : ∀ s ∈ d.externalId, s.isPlain = true
  condition : ∀ s ∈ d.condition, s.isPlain = true

/-- A definition that is frozen has no calls. -/
def Settled (d : ResourceDefinition) : Prop := d.isFrozen = true → d.Plain

variable {stack : Stack} {d f : ResourceDefinition} {o : Overrides} {memo after : Memo}

theorem isPlain_of_freezePart {given : Option Value} {s frozen : Option Snippet}
    (h : (freezePart stack given s).run memo = (.ok frozen, after)) :
    ∀ part ∈ frozen, part.isPlain = true := by
  unfold freezePart at h
  cases given with
  | some v =>
    cases h
    rintro _ ⟨⟩
    exact Snippet.isPlain_ofValue v
  | none =>
    cases s with
    | none =>
      cases h
      nofun
    | some s =>
      obtain ⟨part, hpart, rfl⟩ := Run.exists_of_map h
      obtain ⟨v, -, rfl⟩ := Run.exists_of_map hpart
      rintro _ ⟨⟩
      exact Snippet.isPlain_ofValue v

theorem Plain.withDeletionPolicy (h : d.Plain) (policy : DeletionPolicy) :
    (d.withDeletionPolicy policy).Plain := by
  unfold ResourceDefinition.withDeletionPolicy
  split
  · exact { h with }
  · exact h

theorem isFrozen_withDeletionPolicy (d : ResourceDefinition) (policy : DeletionPolicy) :
    (d.withDeletionPolicy policy).isFrozen = d.isFrozen := by
  unfold withDeletionPolicy
  split <;> rfl

/-- Freezing keeps a frozen definition for which nothing is given, and leaves no calls in any other. -/
theorem plain_of_freeze (h : (d.freeze stack o).run memo = (.ok f, after)) :
    f = d ∧ d.isFrozen = true ∨ f.Plain ∧ f.isFrozen = true := by
  unfold freeze at h
  dsimp only at h
  split at h
  · next hkept =>
    cases h
    exact .inl ⟨rfl, (Bool.and_eq_true_iff.1 hkept).1⟩
  · obtain ⟨properties, _, hproperties, h⟩ := Run.exists_of_bind h
    obtain ⟨metadata, _, hmetadata, h⟩ := Run.exists_of_bind h
    obtain ⟨updatePolicy, _, hpolicy, h⟩ := Run.exists_of_bind h
    obtain ⟨externalId, _, hexternal, h⟩ := Run.exists_of_bind h
    obtain ⟨condition, _, hcondition, h⟩ := Run.exists_of_bind h
    have hplain : Plain { d with
        properties, metadata, dependsOn := o.dependsOn.getD d.dependsOn, updatePolicy,
        description := o.description.getD d.description, externalId, condition, isFrozen := true } :=
      ⟨isPlain_of_freezePart hproperties, isPlain_of_freezePart hmetadata,
        isPlain_of_freezePart hpolicy, isPlain_of_freezePart hexternal,
        isPlain_of_freezePart hcondition⟩
    refine .inr ?_
    cases hgiven : o.deletionPolicy with
    | none =>
      rw [hgiven] at h
      cases h
      exact ⟨hplain, rfl⟩
    | some policy =>
      rw [hgiven] at h
      cases h
      exact ⟨hplain.withDeletionPolicy policy, isFrozen_withDeletionPolicy _ policy⟩

theorem isFrozen_of_resourceDefinition {t : Template} {id : StackId} {name : String} {raw : Value}
    (h : t.resourceDefinition id name raw = .ok d) : d.isFrozen = false := by
  obtain ⟨base, externalId, rfl, -, hfrozen, -⟩ := Template.exists_of_resourceDefinition h
  cases externalId <;> exact hfrozen

theorem isFrozen_of_reparse (h : d.reparse stack = .ok f) : f.isFrozen = false := by
  obtain ⟨_, -, h⟩ := Run.exists_of_bind_ok h
  obtain ⟨_, -, h⟩ := Run.exists_of_bind_ok h
  obtain ⟨_, -, h⟩ := Run.exists_of_bind_ok h
  obtain ⟨_, -, h⟩ := Run.exists_of_bind_ok h
  cases h
  rfl

theorem Settled.plain_of_freeze (hd : d.Settled)
    (h : (d.freeze stack o).run memo = (.ok f, after)) : f.Plain := by
  obtain ⟨rfl, hfrozen⟩ | ⟨hplain, -⟩ := ResourceDefinition.plain_of_freeze h
  · exact hd hfrozen
  · exact hplain

theorem isFrozen_of_freeze (h : (d.freeze stack o).run memo = (.ok f, after)) :
    f.isFrozen = true := by
  obtain ⟨rfl, hfrozen⟩ | ⟨-, hfrozen⟩ := plain_of_freeze h
  · exact hfrozen
  · exact hfrozen

theorem settled_of_not_isFrozen (h : d.isFrozen = false) : d.Settled := by simp [Settled, h]

theorem Begins.settled (h : d.Begins) : d.Settled := by
  cases h with
  | new name type => exact settled_of_not_isFrozen rfl
  | read h => exact settled_of_not_isFrozen (isFrozen_of_resourceDefinition h)

theorem Becomes.settled (h : d.Becomes f) (hd : d.isFrozen = false) : f.Settled := by
  cases h with
  | withDeletionPolicy policy =>
    exact settled_of_not_isFrozen ((isFrozen_withDeletionPolicy d policy).trans hd)
  | freeze h => exact fun _ => (settled_of_not_isFrozen hd).plain_of_freeze h
  | reparse h => exact settled_of_not_isFrozen (isFrozen_of_reparse h)
  | _ => exact settled_of_not_isFrozen hd

/-- A definition that nothing is done to once it is frozen has no calls then. -/
theorem Begins.settled_of_steps (hd : d.Begins)
    (h : ReflTransGen (fun d f => d.isFrozen = false ∧ d.Becomes f) d f) : f.Settled := by
  induction h with
  | refl => exact hd.settled
  | tail _ hstep => exact hstep.2.settled hstep.1

end ResourceDefinition

end Orchestration
