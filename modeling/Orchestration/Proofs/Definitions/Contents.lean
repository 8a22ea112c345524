import Orchestration.Proofs.Definitions.Freezing

namespace Orchestration

namespace Stack

open Memo (Sound)

variable {α β : Type} {stack : Stack} {x : Evaluation α} {r : Result α}

theorem Determines.exists_of_bind {f : α → Evaluation β} {memo after : Memo} {b : β}
    (hx : stack.Determines x r) (hs : Sound stack [] memo)
    (h : (x >>= f).run memo = (.ok b, after)) :
    ∃ a mid, r = .ok a ∧ Sound stack [] mid ∧ (f a).run mid = (.ok b, after) := by
  obtain ⟨mid, hrun, hmid, -⟩ := hx memo hs
  obtain ⟨a, _, ha, hb⟩ := Run.exists_of_bind h
  cases hrun.symm.trans ha
  exact ⟨a, mid, rfl, hmid, hb⟩

theorem determines_resolve (stack : Stack) (s : Snippet) :
    stack.Determines (stack.resolve s) (stack.value s) := by
  rw [stack.value_eq]
  exact determines_run _

end Stack

namespace ResourceDefinition

inductive Section
  | properties
  | metadata
  | updatePolicy
  | externalId
  | condition

def content (d : ResourceDefinition) : Section → Option Snippet
  | .properties => d.properties
  | .metadata => d.metadata
  | .updatePolicy => d.updatePolicy
  | .externalId => d.externalId
  | .condition => d.condition

end ResourceDefinition

def Overrides.content (o : Overrides) : ResourceDefinition.Section → Option Value
  | .properties => o.properties
  | .metadata => o.metadata
  | .updatePolicy => o.updatePolicy
  | .externalId => none
  | .condition => none

namespace ResourceDefinition

open Memo (Sound)

variable {stack target : Stack} {d f g : ResourceDefinition} {o : Overrides} {memo after : Memo}

theorem content_withDeletionPolicy (d : ResourceDefinition) (policy : DeletionPolicy) :
    (d.withDeletionPolicy policy).content = d.content := by
  unfold withDeletionPolicy
  split
  · exact funext fun part => by cases part <;> rfl
  · rfl

theorem Plain.content (h : d.Plain) (part : Section) : ∀ s ∈ d.content part, s.isPlain = true := by
  cases part with
  | properties => exact h.properties
  | metadata => exact h.metadata
  | updatePolicy => exact h.updatePolicy
  | externalId => exact h.externalId
  | condition => exact h.condition

def frozenValue (stack : Stack) (given : Option Value) (s : Option Snippet) :
    Result (Option Value) :=
  match given with
  | some v => pure (some v)
  | none => s.mapM stack.value

theorem determines_freezePart (given : Option Value) (s : Option Snippet) :
    stack.Determines (freezePart stack given s)
      (Option.map .ofValue <$> frozenValue stack given s) := by
  cases given with
  | some v => exact .lift (pure _)
  | none =>
    cases s with
    | none => exact .lift (pure _)
    | some s =>
      have h := ((stack.determines_resolve s).map Snippet.ofValue).map some
      rw [frozenValue, Option.mapM_some]
      cases hv : stack.value s with
      | error e => rwa [hv] at h
      | ok v => rwa [hv] at h

theorem content_of_freeze (hkept : d.isKept o = false) (hs : Sound stack [] memo)
    (h : (d.freeze stack o).run memo = (.ok f, after)) (part : Section) :
    ∃ v, frozenValue stack (o.content part) (d.content part) = .ok v ∧
      f.content part = v.map .ofValue := by
  unfold freeze at h
  dsimp only at h
  rw [if_neg (by simp [hkept])] at h
  obtain ⟨properties, _, hproperties, hs, h⟩ := (determines_freezePart _ _).exists_of_bind hs h
  obtain ⟨metadata, _, hmetadata, hs, h⟩ := (determines_freezePart _ _).exists_of_bind hs h
  obtain ⟨updatePolicy, _, hpolicy, hs, h⟩ := (determines_freezePart _ _).exists_of_bind hs h
  obtain ⟨externalId, _, hexternal, hs, h⟩ := (determines_freezePart _ _).exists_of_bind hs h
  obtain ⟨condition, _, hcondition, hs, h⟩ := (determines_freezePart _ _).exists_of_bind hs h
  have hparts : f.content = ({ d with
      properties, metadata, dependsOn := o.dependsOn.getD d.dependsOn, updatePolicy,
      description := o.description.getD d.description, externalId, condition,
      isFrozen := true } : ResourceDefinition).content := by
    cases hgiven : o.deletionPolicy with
    | none =>
      rw [hgiven] at h
      cases h
      rfl
    | some policy =>
      rw [hgiven] at h
      cases h
      exact content_withDeletionPolicy _ policy
  suffices hpart : Option.map .ofValue <$> frozenValue stack (o.content part) (d.content part) =
      .ok (f.content part) by
    obtain ⟨v, hv, hf⟩ := Run.exists_of_map_ok hpart
    exact ⟨v, hv, hf.symm⟩
  rw [hparts]
  cases part with
  | properties => exact hproperties
  | metadata => exact hmetadata
  | updatePolicy => exact hpolicy
  | externalId => exact hexternal
  | condition => exact hcondition

def contentValue (d : ResourceDefinition) (stack : Stack) (part : Section) : Result (Option Value) :=
  (d.content part).mapM stack.value

theorem Plain.contentValue (h : d.Plain) (stack : Stack) (part : Section) :
    d.contentValue stack part = .ok ((d.content part).map Snippet.canonical) := by
  have hpart := h.content part
  unfold ResourceDefinition.contentValue
  cases hs : d.content part with
  | none => rfl
  | some s =>
    rw [Option.mapM_some, stack.value_of_isPlain s (hpart s hs)]
    rfl

theorem contentValue_of_freeze (hd : d.Settled) {earlier : List Request}
    (h : ((d.freeze stack {}).run (stack.memoAfter earlier)).1 = .ok f) (other : Stack)
    (part : Section) :
    f.contentValue other part = d.contentValue stack part ∧
      d.contentValue stack part = .ok ((f.content part).map Snippet.canonical) := by
  have hrun : (d.freeze stack {}).run (stack.memoAfter earlier) =
    (.ok f, ((d.freeze stack {}).run (stack.memoAfter earlier)).2) := Prod.ext h rfl
  have hplain := hd.plain_of_freeze hrun
  suffices hvalue : d.contentValue stack part = .ok ((f.content part).map Snippet.canonical) from
    ⟨(hplain.contentValue other part).trans hvalue.symm, hvalue⟩
  cases hfrozen : d.isFrozen with
  | true =>
    rw [freeze_of_isFrozen hfrozen] at hrun
    cases hrun
    exact hplain.contentValue stack part
  | false =>
    obtain ⟨v, hv, hf⟩ := content_of_freeze (by simp [isKept, hfrozen]) (stack.sound_memoAfter earlier)
      hrun part
    have hnone : ({} : Overrides).content part = none := by cases part <;> rfl
    rw [hnone] at hv
    rw [hf, Option.map_map]
    simp only [Function.comp_def, Snippet.canonical_ofValue, Option.map_id']
    exact hv

end ResourceDefinition

end Orchestration
