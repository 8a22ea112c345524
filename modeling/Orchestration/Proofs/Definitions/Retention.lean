import Orchestration.Proofs.Definitions.Steps

namespace Orchestration.ResourceDefinition

open Relation (ReflTransGen)

def IsExternal (d : ResourceDefinition) : Prop := d.externalId.isSome

def Keeps (d : ResourceDefinition) : Prop := d.IsExternal → d.deletionPolicy = .retain

/-- What a step leaves of a definition: an external resource stays external, and the policy of one
that is external does not change. -/
structure Preserves (d f : ResourceDefinition) : Prop where
  isExternal : f.IsExternal ↔ d.IsExternal
  givenPolicy : d.IsExternal → f.givenPolicy = d.givenPolicy

variable {d e f : ResourceDefinition}

theorem Keeps.of_preserves (hd : d.Keeps) (h : d.Preserves f) : f.Keeps := by
  intro hf
  have hexternal := h.isExternal.1 hf
  rw [deletionPolicy, h.givenPolicy hexternal]
  exact hd hexternal

theorem preserves_withDeletionPolicy (d : ResourceDefinition) (policy : DeletionPolicy) :
    d.Preserves (d.withDeletionPolicy policy) := by
  unfold withDeletionPolicy
  split
  · next hnone => exact ⟨Iff.rfl, fun hd => by simp [IsExternal, Option.isNone_iff_eq_none.1 hnone] at hd⟩
  · exact ⟨Iff.rfl, fun _ => rfl⟩

theorem Preserves.trans (h : d.Preserves e) (h' : e.Preserves f) : d.Preserves f where
  isExternal := h'.isExternal.trans h.isExternal
  givenPolicy hd := (h'.givenPolicy (h.isExternal.2 hd)).trans (h.givenPolicy hd)

theorem isSome_of_freezePart {stack : Stack} {s frozen : Option Snippet} {memo after : Memo}
    (h : (freezePart stack none s).run memo = (.ok frozen, after)) : frozen.isSome = s.isSome := by
  cases s with
  | none =>
    cases h
    rfl
  | some s =>
    obtain ⟨_, -, rfl⟩ := Run.exists_of_map h
    rfl

theorem preserves_freeze {stack : Stack} {o : Overrides} {memo after : Memo}
    (h : (d.freeze stack o).run memo = (.ok f, after)) : d.Preserves f := by
  unfold freeze at h
  dsimp only at h
  split at h
  · cases h
    exact ⟨Iff.rfl, fun _ => rfl⟩
  · obtain ⟨properties, _, -, h⟩ := Run.exists_of_bind h
    obtain ⟨metadata, _, -, h⟩ := Run.exists_of_bind h
    obtain ⟨updatePolicy, _, -, h⟩ := Run.exists_of_bind h
    obtain ⟨externalId, _, hexternal, h⟩ := Run.exists_of_bind h
    obtain ⟨condition, _, -, h⟩ := Run.exists_of_bind h
    have hfrozen : d.Preserves { d with
        properties, metadata, dependsOn := o.dependsOn.getD d.dependsOn, updatePolicy,
        description := o.description.getD d.description, externalId, condition, isFrozen := true } :=
      ⟨by simp only [IsExternal, isSome_of_freezePart hexternal], fun _ => rfl⟩
    cases hgiven : o.deletionPolicy with
    | none =>
      rw [hgiven] at h
      cases h
      exact hfrozen
    | some policy =>
      rw [hgiven] at h
      cases h
      exact hfrozen.trans (preserves_withDeletionPolicy _ policy)

theorem isSome_of_reparsePart {stack : Stack} {s read : Option Snippet}
    (h : reparsePart stack s = .ok read) : read.isSome = s.isSome := by
  cases s with
  | none =>
    cases h
    rfl
  | some s =>
    obtain ⟨_, -, rfl⟩ := Run.exists_of_map_ok h
    rfl

theorem preserves_reparse {stack : Stack} (h : d.reparse stack = .ok f) : d.Preserves f := by
  obtain ⟨_, -, h⟩ := Run.exists_of_bind_ok h
  obtain ⟨_, -, h⟩ := Run.exists_of_bind_ok h
  obtain ⟨_, -, h⟩ := Run.exists_of_bind_ok h
  obtain ⟨_, hexternal, h⟩ := Run.exists_of_bind_ok h
  cases h
  exact ⟨by simp only [IsExternal, isSome_of_reparsePart hexternal], fun _ => rfl⟩

theorem keeps_withExternalId (d : ResourceDefinition) (s : Snippet) : (d.withExternalId s).Keeps :=
  fun _ => rfl

theorem Becomes.cases (h : d.Becomes f) : (f.IsExternal ∧ f.Keeps) ∨ d.Preserves f := by
  cases h with
  | withExternalId s => exact .inl ⟨rfl, keeps_withExternalId d s⟩
  | withDeletionPolicy policy => exact .inr (preserves_withDeletionPolicy d policy)
  | freeze h => exact .inr (preserves_freeze h)
  | reparse h => exact .inr (preserves_reparse h)
  | _ => exact .inr ⟨Iff.rfl, fun _ => rfl⟩

theorem Becomes.isExternal (h : d.Becomes f) (hd : d.IsExternal) : f.IsExternal := by
  obtain ⟨hf, -⟩ | hf := h.cases
  · exact hf
  · exact hf.isExternal.2 hd

theorem Becomes.keeps (h : d.Becomes f) (hd : d.Keeps) : f.Keeps := by
  obtain ⟨-, hf⟩ | hf := h.cases
  · exact hf
  · exact hd.of_preserves hf

theorem keeps_of_resourceDefinition {t : Template} {id : StackId} {name : String} {raw : Value}
    (h : t.resourceDefinition id name raw = .ok d) : d.Keeps := by
  obtain ⟨base, externalId, rfl, hnone, -⟩ := Template.exists_of_resourceDefinition h
  cases externalId with
  | none =>
    intro hbase
    simp [IsExternal, hnone] at hbase
  | some id => exact keeps_withExternalId base id

theorem Begins.keeps (h : d.Begins) : d.Keeps := by
  cases h with
  | new name type => exact nofun
  | read h => exact keeps_of_resourceDefinition h

/-- Whatever is done to a definition, one step after the other, its resource stays external once it
is, and if the definition is made in the first place or read, a resource that is external is
retained. -/
theorem retained_of_isExternal (h : ReflTransGen Becomes d f) :
    (d.IsExternal → f.IsExternal) ∧ (d.Begins → f.IsExternal → f.deletionPolicy = .retain) := by
  suffices hsteps : (d.IsExternal → f.IsExternal) ∧ (d.Keeps → f.Keeps) from
    ⟨hsteps.1, fun hd => hsteps.2 hd.keeps⟩
  induction h with
  | refl => exact ⟨id, id⟩
  | tail _ hstep ih => exact ⟨fun hd => hstep.isExternal (ih.1 hd), fun hd => hstep.keeps (ih.2 hd)⟩

/-- A network that is to be deleted is retained as soon as it is external, also when it is told
otherwise, frozen with another policy and read again for a second stack. -/
theorem retained_of_network :
    let raw : Value := .map [("type", .text "Net"), ("deletion_policy", .text "Delete"),
      ("external_id", .map [("get_param", .text "net")])]
    ∃ t stack other d f g, Template.ofValue (.map [("heat_template_version", .text "2016-10-14"),
        ("parameters", .map [("net", .map [("type", .text "string")])])]) = .ok t ∧
      Stack.make ⟨"s"⟩ "s" t [("net", .text "n")] (StaticResources.toResources []) = .ok stack ∧
      Stack.make ⟨"other"⟩ "s" t [] (StaticResources.toResources []) = .ok other ∧
      t.resourceDefinition ⟨"s"⟩ "net" raw = .ok d ∧
      (((d.withDeletionPolicy .snapshot).freeze stack { deletionPolicy := some .delete }).run
        []).1 = .ok f ∧
      f.reparse other = .ok g ∧ g.externalId = some (.text "n") ∧ g.deletionPolicy = .retain := by
  intro raw
  have hretained {t : Template} {stack other : Stack} {d f g : ResourceDefinition}
      (hd : t.resourceDefinition ⟨"s"⟩ "net" raw = .ok d)
      (hf : (((d.withDeletionPolicy .snapshot).freeze stack
        { deletionPolicy := some .delete }).run []).1 = .ok f)
      (hg : f.reparse other = .ok g) (hid : g.externalId = some (.text "n")) :
      g.deletionPolicy = .retain := by
    have hsteps : ReflTransGen Becomes d g :=
      .tail (.tail (.single (.withDeletionPolicy .snapshot)) (.freeze (Prod.ext hf rfl))) (.reparse hg)
    exact (retained_of_isExternal hsteps).2 (.read hd) (by rw [IsExternal, hid]; rfl)
  refine ⟨_, _, _, ?d, ?f, ?g, rfl, rfl, rfl, ?hd, ?hf, ?hg, ?hid, hretained ?hd ?hf ?hg ?hid⟩
  case hd => rfl
  case hf => rfl
  case hg => rfl
  case hid => rfl

end Orchestration.ResourceDefinition
