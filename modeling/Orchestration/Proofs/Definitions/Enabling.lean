import Orchestration.Proofs.Definitions.Contents

namespace Orchestration

namespace Stack

variable (stack : Stack)

def enabledBy : Option Snippet → Result Bool
  | none => pure true
  | some s =>
    (Evaluation.Operand.isEnabled ⟨s, fun _ => Evaluation.resolve stack s⟩).run stack.truthOf

theorem determines_enabledBy (condition : Option Snippet) :
    stack.Determines (stack.isEnabled condition) (stack.enabledBy condition) := by
  cases condition with
  | none => exact .lift (pure true)
  | some s => exact determines_run _

def saying : Value → Result Bool
  | .bool b => pure b
  | .text name => stack.truthOf name
  | other => .error (.bare (.conditionResult other.shortText))

theorem enabledBy_ofValue {v : Value} (hv : v ≠ .null) :
    stack.enabledBy (some (.ofValue v)) = stack.saying v := by
  have hother (v : Value) : (Except.error (.bare (.conditionResult
      (Snippet.ofValue v).canonical.shortText)) : Result Bool) =
        .error (.bare (.conditionResult v.shortText)) := by
    rw [Snippet.canonical_ofValue]
  cases v with
  | scalar s =>
    cases s with
    | null => exact absurd rfl hv
    | text name => exact Inquiry.run_truth name
    | _ => rfl
  | list items => exact hother (.list items)
  | map fields => exact hother (.map fields)

theorem enabledBy_call (c : Call) (args : Snippet) :
    stack.enabledBy (some (.call c args)) = stack.value (.call c args) >>= stack.saying := by
  rw [value_eq]
  refine (Inquiry.run_bind _ _).trans (congrArg _ (funext fun v => ?_))
  cases v with
  | scalar s =>
    cases s with
    | text name => exact Inquiry.run_truth name
    | _ => rfl
  | _ => rfl

end Stack

inductive Snippet.IsReference : Snippet → Prop
  | bool (b : Bool) : IsReference (.bool b)
  | text (name : String) : IsReference (.text name)
  | call (c : Call) (args : Snippet) : IsReference (.call c args)

theorem Stack.enabledBy_of_isReference {stack : Stack} {s : Snippet} (h : s.IsReference) :
    stack.enabledBy (some s) = stack.value s >>= stack.saying := by
  cases h with
  | bool b => exact (stack.enabledBy_ofValue (v := .bool b) nofun).trans rfl
  | text name => exact (stack.enabledBy_ofValue (v := .text name) nofun).trans rfl
  | call c args => exact stack.enabledBy_call c args

namespace Template

variable {t : Template} {stack : StackId}

theorem isReference_of_conditionReference {path : Breadcrumb} {v : Value} {s : Snippet}
    (h : t.conditionReference stack path v = .ok s) : s.IsReference := by
  unfold conditionReference at h
  split at h
  · cases h
    exact .bool _
  · split at h
    · cases h
      exact .text _
    · cases h
  · split at h
    · obtain ⟨found, -, h⟩ := Run.exists_of_bind_ok (Run.located_eq_ok_iff.1 h)
      split at h
      · next hcall =>
        cases h
        cases s with
        | call c args => exact .call c args
        | _ => cases hcall
      · cases h
    · cases h
  · cases h

theorem isReference_of_resourceDefinition {name : String} {raw : Value} {d : ResourceDefinition}
    (h : t.resourceDefinition stack name raw = .ok d) : ∀ s ∈ d.condition, s.IsReference := by
  obtain ⟨base, externalId, rfl, -, -, -, ⟨fields, key, path, h⟩, -⟩ :=
    exists_of_resourceDefinition h
  have hcondition : (externalId.elim base base.withExternalId).condition = base.condition := by
    cases externalId <;> rfl
  rw [hcondition]
  unfold condition at h
  generalize given? fields key = given at h
  cases given with
  | none =>
    rw [← Except.ok.inj h]
    nofun
  | some e =>
    obtain ⟨s, hs, h⟩ := Run.exists_of_map_ok h
    rw [← h]
    rintro _ ⟨⟩
    exact isReference_of_conditionReference hs

end Template

namespace ResourceDefinition

/-- A resource is enabled by its frozen condition as by its own, and fails to be by both for the
same reason, unless its condition comes to null: then it was no condition, and it is none once it is
frozen. -/
theorem isEnabled_of_freeze (stack : Stack) (name : String) (raw : Value) (d : ResourceDefinition)
    (hd : stack.template.resourceDefinition stack.id name raw = .ok d) (o : Overrides)
    (earlier : List Request) (f : ResourceDefinition)
    (h : ((d.freeze stack o).run (stack.memoAfter earlier)).1 = .ok f) :
    (f.condition ≠ some .null → ∀ before before',
      ((stack.isEnabled f.condition).run (stack.memoAfter before)).1 =
        ((stack.isEnabled d.condition).run (stack.memoAfter before')).1) ∧
    (f.condition = some .null → ∀ before,
      ((stack.isEnabled f.condition).run (stack.memoAfter before)).1 = .ok true ∧
      ((stack.isEnabled d.condition).run (stack.memoAfter before)).1 =
        .error (.bare (.conditionResult "null"))) := by
  have hrun : (d.freeze stack o).run (stack.memoAfter earlier) =
    (.ok f, ((d.freeze stack o).run (stack.memoAfter earlier)).2) := Prod.ext h rfl
  have hkept : d.isKept o = false := by
    rw [isKept, isFrozen_of_resourceDefinition hd, Bool.false_and]
  obtain ⟨v, hvalue, hf⟩ := content_of_freeze hkept (stack.sound_memoAfter earlier) hrun .condition
  have hf : f.condition = v.map .ofValue := hf
  have hvalue : d.condition.mapM stack.value = .ok v := hvalue
  have hreference := Template.isReference_of_resourceDefinition hd
  simp only [(stack.determines_enabledBy _).run_memoAfter]
  rw [hf]
  cases hs : d.condition with
  | none =>
    rw [hs] at hvalue
    cases hvalue
    refine ⟨fun _ _ _ => rfl, fun h => ?_⟩
    cases h
  | some s =>
    rw [hs] at hvalue
    obtain ⟨v, hv, rfl⟩ := Run.exists_of_map_ok hvalue
    have henabled : stack.enabledBy (some s) = stack.saying v :=
      (Stack.enabledBy_of_isReference (hreference s hs)).trans (Run.ok_bind hv)
    rw [henabled]
    refine ⟨fun hnull _ _ => stack.enabledBy_ofValue ?_, fun hnull _ => ?_⟩
    · rintro rfl
      exact hnull rfl
    · have hv : v = .null := by
        rw [← Snippet.canonical_ofValue v, Option.some.inj hnull]
        rfl
      subst hv
      exact ⟨rfl, rfl⟩

/-- A parameter may name the condition of a resource, which is then the condition of the frozen
one. -/
theorem isEnabled_of_frozen_name :
    let raw : Value := .map [("type", .text "T"),
      ("condition", .map [("get_param", .text "p")])]
    ∃ t stack d f, Template.ofValue (.map [("heat_template_version", .text "2017-09-01"),
        ("parameters", .map [("p", .map [("type", .text "string"), ("default", .text "live")])]),
        ("conditions", .map [("live", .bool false)])]) = .ok t ∧
      Stack.make ⟨"s"⟩ "s" t [] (StaticResources.toResources []) = .ok stack ∧
      stack.template.resourceDefinition stack.id "r" raw = .ok d ∧
      ((d.freeze stack {}).run (stack.memoAfter [])).1 = .ok f ∧ f.condition ≠ some .null ∧
      ((stack.isEnabled f.condition).run (stack.memoAfter [])).1 =
        ((stack.isEnabled d.condition).run (stack.memoAfter [])).1 ∧
      ((stack.isEnabled d.condition).run (stack.memoAfter [])).1 = .ok false := by
  intro raw
  have hsame (stack : Stack) (d f : ResourceDefinition)
      (hd : stack.template.resourceDefinition stack.id "r" raw = .ok d)
      (hf : ((d.freeze stack {}).run (stack.memoAfter [])).1 = .ok f)
      (hname : f.condition = some (.text "live"))
      (hlive : ((stack.isEnabled d.condition).run (stack.memoAfter [])).1 = .ok false) :
      f.condition ≠ some .null ∧ ((stack.isEnabled f.condition).run (stack.memoAfter [])).1 =
          ((stack.isEnabled d.condition).run (stack.memoAfter [])).1 ∧
        ((stack.isEnabled d.condition).run (stack.memoAfter [])).1 = .ok false := by
    have hnull : f.condition ≠ some .null := by
      rw [hname]
      nofun
    exact ⟨hnull, (isEnabled_of_freeze stack "r" raw d hd {} [] f hf).1 hnull [] [], hlive⟩
  exact ⟨_, _, _, _, rfl, rfl, rfl, rfl, hsame _ _ _ rfl rfl rfl rfl⟩

/-- A path that leads to null makes no condition, but the frozen definition has null for one. -/
theorem isEnabled_of_frozen_null :
    ∃ t stack d f, Template.ofValue (.map [("heat_template_version", .text "2017-09-01"),
        ("parameters",
          .map [("p", .map [("type", .text "json"), ("default", .map [("k", .null)])])])]) = .ok t ∧
      Stack.make ⟨"s"⟩ "s" t [] (StaticResources.toResources []) = .ok stack ∧
      stack.template.resourceDefinition stack.id "r" (.map [("type", .text "T"),
        ("condition", .map [("get_param", .list [.text "p", .text "k"])])]) = .ok d ∧
      ((d.freeze stack {}).run (stack.memoAfter [])).1 = .ok f ∧
      ((stack.isEnabled f.condition).run (stack.memoAfter [])).1 = .ok true ∧
      ((stack.isEnabled d.condition).run (stack.memoAfter [])).1 =
        .error (.bare (.conditionResult "null")) :=
  ⟨_, _, _, _, rfl, rfl, rfl, rfl, rfl, rfl⟩

end ResourceDefinition

end Orchestration
