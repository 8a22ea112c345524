import Orchestration.Definition.Dependency

namespace Orchestration.Snippet

theorem target?_eq_some {fn : Intrinsic} {args : Snippet} {name : String}
    (h : target? fn args = some name) :
    (fn = .resource ∧ args = .text name) ∨
      (fn = .attributeOf ∧ ∃ rest, args = .list (.text name :: rest)) := by
  unfold target? at h
  split at h
  · exact .inl ⟨rfl, by rw [Option.some.inj h]⟩
  · exact .inr ⟨rfl, _, by rw [Option.some.inj h]⟩
  · cases h

section

variable (P : Call → Snippet → Prop)

mutual

def Every : Snippet → Prop
  | .scalar _ => True
  | .list items => EveryItem items
  | .map fields => EveryField fields
  | .call c args => P c args ∧ Every args

def EveryItem : List Snippet → Prop
  | [] => True
  | s :: rest => Every s ∧ EveryItem rest

def EveryField : List (String × Snippet) → Prop
  | [] => True
  | (_, s) :: rest => Every s ∧ EveryField rest

end

end

section

variable {P Q R : Call → Snippet → Prop}

mutual

theorem Every.imp₂ (h : ∀ c args, P c args → Q c args → R c args) :
    ∀ s, Every P s → Every Q s → Every R s
  | .scalar _, _, _ => trivial
  | .list items, hp, hq => EveryItem.imp₂ h items hp hq
  | .map fields, hp, hq => EveryField.imp₂ h fields hp hq
  | .call c args, hp, hq => ⟨h c args hp.1 hq.1, Every.imp₂ h args hp.2 hq.2⟩

theorem EveryItem.imp₂ (h : ∀ c args, P c args → Q c args → R c args) :
    ∀ items, EveryItem P items → EveryItem Q items → EveryItem R items
  | [], _, _ => trivial
  | s :: rest, hp, hq => ⟨Every.imp₂ h s hp.1 hq.1, EveryItem.imp₂ h rest hp.2 hq.2⟩

theorem EveryField.imp₂ (h : ∀ c args, P c args → Q c args → R c args) :
    ∀ fields, EveryField P fields → EveryField Q fields → EveryField R fields
  | [], _, _ => trivial
  | (_, s) :: rest, hp, hq => ⟨Every.imp₂ h s hp.1 hq.1, EveryField.imp₂ h rest hp.2 hq.2⟩

end

theorem Every.imp (h : ∀ c args, P c args → Q c args) {s : Snippet} (hs : Every P s) : Every Q s :=
  Every.imp₂ (fun c args hp _ => h c args hp) s hs hs

theorem EveryField.of_mem {fields : List (String × Snippet)} (h : EveryField P fields)
    {key : String} {s : Snippet} (hs : (key, s) ∈ fields) : Every P s := by
  induction fields with
  | nil => cases hs
  | cons e rest ih =>
    obtain ⟨he, hrest⟩ := h
    obtain rfl | hs := List.mem_cons.1 hs
    · exact he
    · exact ih hrest hs

end

section

variable (P : String → Prop)

mutual

theorem every_target_iff : ∀ (s : Snippet) (path : String),
    Every (fun c args => ∀ name ∈ target? c.fn args, P name) s ↔
      ∀ d ∈ s.dependencies path, P d.resource
  | .scalar _, _ => by simp [Every, dependencies]
  | .list items, path => everyItem_target_iff items path 0
  | .map fields, path => everyField_target_iff fields path
  | .call c args, path => by
    simp only [Every, dependencies, List.mem_append, or_imp, forall_and]
    rw [and_comm]
    refine and_congr (every_target_iff args _) ?_
    cases target? c.fn args <;> simp

theorem everyItem_target_iff : ∀ (items : List Snippet) (path : String) (i : Nat),
    EveryItem (fun c args => ∀ name ∈ target? c.fn args, P name) items ↔
      ∀ d ∈ itemDependencies items path i, P d.resource
  | [], _, _ => by simp [EveryItem, itemDependencies]
  | s :: rest, path, i => by
    simp only [EveryItem, itemDependencies, List.mem_append, or_imp, forall_and]
    exact and_congr (every_target_iff s _) (everyItem_target_iff rest path (i + 1))

theorem everyField_target_iff : ∀ (fields : List (String × Snippet)) (path : String),
    EveryField (fun c args => ∀ name ∈ target? c.fn args, P name) fields ↔
      ∀ d ∈ fieldDependencies fields path, P d.resource
  | [], _ => by simp [EveryField, fieldDependencies]
  | (k, s) :: rest, path => by
    simp only [EveryField, fieldDependencies, List.mem_append, or_imp, forall_and]
    exact and_congr (every_target_iff s _) (everyField_target_iff rest path)

end

end

end Orchestration.Snippet
