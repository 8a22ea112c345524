import Orchestration.Definition.Freeze
import Orchestration.Proofs.Validation.Checks
import Orchestration.Proofs.Validation.Supported
import Orchestration.Stack.Enabled

namespace Orchestration

theorem Inquiry.exists_of_run_bind {α β : Type} {find : String → Result Bool} {q : Inquiry α}
    {f : α → Inquiry β} {b : β} (h : (q >>= f).run find = .ok b) : ∃ a, q.run find = .ok a := by
  induction q with
  | done r =>
    cases r with
    | error e => cases h
    | ok a => exact ⟨a, rfl⟩
  | ask name next ih =>
    obtain ⟨c, hc, h⟩ := Run.exists_of_bind_ok h
    obtain ⟨a, ha⟩ := ih c h
    exact ⟨a, (Run.ok_bind hc).trans ha⟩

def Snippet.IsOffered (s : Snippet) : Prop := s.Every fun c _ => c.IsOffered

namespace Stack

variable {stack : Stack} {memo : Memo} {α β : Type}

theorem Passes.isOffered {c : Call} {args : Snippet} (h : stack.Passes c args) : c.IsOffered := by
  intro version reason hfn
  have ho := h.offered
  rw [checkOffered, hfn] at ho
  cases ho

theorem isOffered_of_passes {s : Snippet} (h : s.Every stack.Passes) : s.IsOffered :=
  h.imp fun _ _ => Passes.isOffered

def Supports (stack : Stack) (x : Evaluation α) : Prop :=
  ∃ r, stack.Determines x r ∧ Result.Supported r

namespace Supports

theorem lift {r : Result α} (h : Result.Supported r) : stack.Supports (liftM r) := ⟨r, .lift r, h⟩

theorem pure (a : α) : stack.Supports (pure a) := lift (.pure a)

theorem bind {x : Evaluation α} {f : α → Evaluation β} (hx : stack.Supports x)
    (hf : ∀ a, stack.Supports (f a)) : stack.Supports (x >>= f) := by
  obtain ⟨r, hr, hsupported⟩ := hx
  choose g hg hgs using hf
  exact ⟨r >>= g, hr.bind hg, hsupported.bind hgs⟩

theorem bind_lift {r : Result α} {a : α} {f : α → Evaluation β} (hr : r = .ok a)
    (hf : stack.Supports (f a)) : stack.Supports (liftM r >>= f) := by
  subst hr
  obtain ⟨r, hr, hsupported⟩ := hf
  refine ⟨r, fun memo hs => ?_, hsupported⟩
  obtain ⟨after, hrun, hafter⟩ := hr memo hs
  exact ⟨after, (Run.bind_ok rfl).trans hrun, hafter⟩

theorem map (f : α → β) {x : Evaluation α} (hx : stack.Supports x) : stack.Supports (f <$> x) := by
  rw [← bind_pure_comp]
  exact hx.bind fun a => pure (f a)

theorem filterM {f : α → Evaluation Bool} {as : List α} (h : ∀ a ∈ as, stack.Supports (f a)) :
    stack.Supports (as.filterM f) := by
  have haux (kept : List α) : stack.Supports (as.filterAuxM f kept) := by
    induction as generalizing kept with
    | nil => exact pure kept
    | cons a as ih =>
      obtain ⟨ha, has⟩ := List.forall_mem_cons.1 h
      exact ha.bind fun b => ih has _
  exact (haux []).bind fun kept => pure kept.reverse

theorem run_memoAfter {x : Evaluation α} (h : stack.Supports x) (earlier : List Request) :
    Result.Supported (x.run (stack.memoAfter earlier)).1 := by
  obtain ⟨r, hr, hsupported⟩ := h
  obtain ⟨after, hx, -⟩ := hr _ (stack.sound_memoAfter earlier)
  rw [hx]
  exact hsupported

end Supports

section

variable (hresources : stack.resources.Supported)
  (hconditions : ∀ e ∈ stack.conditions, e.2.IsOffered)

include hresources hconditions

theorem supports_run {q : Inquiry α} (hq : q.Supported) : stack.Supports (q.run stack.evaluate) :=
  ⟨_, determines_run q, hq.run fun name => supported_truthUnder hresources
    (fun _ definition hd => hconditions (_, definition) (Fields.mem_of_get? hd)) [] name⟩

theorem supports_resolve {s : Snippet} (h : s.IsOffered) : stack.Supports (stack.resolve s) :=
  supports_run hresources hconditions (Evaluation.supported_resolve hresources s h)

theorem supports_isEnabled {condition : Option Snippet} (h : ∀ s ∈ condition, s.IsOffered) :
    stack.Supports (stack.isEnabled condition) := by
  cases condition with
  | none => exact .pure true
  | some s =>
    exact supports_run hresources hconditions
      (Evaluation.Operand.supported_isEnabled (Evaluation.supported_resolve hresources s (h s rfl)))

end

theorem supports_freezePart {given : Option Value} {part : Option Snippet}
    (h : ∀ s ∈ part, stack.Supports (stack.resolve s)) :
    stack.Supports (ResourceDefinition.freezePart stack given part) := by
  unfold ResourceDefinition.freezePart
  cases given with
  | some v => exact .pure _
  | none =>
    cases part with
    | none => exact .pure none
    | some s => exact ((h s rfl).map _).map _

structure SupportsParts (stack : Stack) (d : ResourceDefinition) : Prop where
  properties : ∀ s ∈ d.properties, stack.Supports (stack.resolve s)
  metadata : ∀ s ∈ d.metadata, stack.Supports (stack.resolve s)
  updatePolicy : ∀ s ∈ d.updatePolicy, stack.Supports (stack.resolve s)
  externalId : ∀ s ∈ d.externalId, stack.Supports (stack.resolve s)
  condition : ∀ s ∈ d.condition, stack.Supports (stack.resolve s)

theorem SupportsParts.freeze {d : ResourceDefinition} (h : stack.SupportsParts d)
    (o : Overrides) : stack.Supports (d.freeze stack o) := by
  unfold ResourceDefinition.freeze
  dsimp only
  split
  · exact .pure _
  · refine (supports_freezePart h.properties).bind fun _ => ?_
    refine (supports_freezePart h.metadata).bind fun _ => ?_
    refine (supports_freezePart h.updatePolicy).bind fun _ => ?_
    refine (supports_freezePart h.externalId).bind fun _ => ?_
    exact (supports_freezePart h.condition).bind fun _ => .pure _

theorem supports_resolve_of_isEnabled {s : Snippet} {before : List Request} {b : Bool}
    (h : ((stack.isEnabled (some s)).run (stack.memoAfter before)).1 = .ok b) :
    stack.Supports (stack.resolve s) := by
  obtain ⟨_, hrun, -⟩ := determines_run
    (Evaluation.Operand.isEnabled ⟨s, fun _ => Evaluation.resolve stack s⟩) _
    (stack.sound_memoAfter before)
  have h := (congrArg Prod.fst hrun).symm.trans h
  refine ⟨_, determines_run _, ?_⟩
  cases s with
  | scalar s => exact .pure _
  | call c args =>
    obtain ⟨v, hv⟩ := Inquiry.exists_of_run_bind h
    have hv : (Evaluation.resolve stack (.call c args)).run stack.truthOf = .ok v := hv
    rw [hv]
    exact .pure v
  | _ => cases h

/-- After validation without an error every function is offered that is called outside of the
conditions of resources and outputs. Enabled resources can be frozen and outputs resolved without a
failure for want of a function, and if all functions in their conditions are offered too, so can be
found out which of them are enabled. -/
theorem supported_of_validate (stack : Stack) (hresources : stack.resources.Supported)
    (earlier : List Request)
    (h : (stack.validate.run (stack.memoAfter earlier)).1 = .ok ()) :
    (∀ e ∈ stack.conditions, e.2.IsOffered) ∧
    (∃ definitions, stack.template.resourceDefinitions stack.id = .ok definitions ∧
      (∀ e ∈ definitions,
        (∀ s, s ∈ e.2.properties ∨ s ∈ e.2.metadata ∨ s ∈ e.2.updatePolicy ∨ s ∈ e.2.externalId →
          s.IsOffered) ∧
        ∀ before, ((stack.isEnabled e.2.condition).run (stack.memoAfter before)).1 = .ok true →
          ∀ later, Result.Supported ((e.2.freeze stack {}).run (stack.memoAfter later)).1) ∧
      ((∀ e ∈ definitions, ∀ s ∈ e.2.condition, s.IsOffered) →
        ∀ later, Result.Supported (stack.resourceDefinitions.run (stack.memoAfter later)).1)) ∧
    ∃ outputs, stack.template.outputs stack.id = .ok outputs ∧
      (∀ e ∈ outputs, e.2.value.IsOffered ∧
        ∀ later, Result.Supported ((stack.resolve e.2.value).run (stack.memoAfter later)).1) ∧
      ((∀ e ∈ outputs, ∀ s ∈ e.2.condition, s.IsOffered) →
        ∀ later, Result.Supported (stack.outputs.run (stack.memoAfter later)).1) := by
  have hconditions : ∀ e ∈ stack.conditions, e.2.IsOffered := fun e he =>
    isOffered_of_passes
      (checkedDefinitions_of_validateConditions (conditions_of_validate h) e he).passes
  obtain ⟨definitions, hdefinitions, hchecked⟩ := definitions_of_validate h
  obtain ⟨outputs, houtputs, hpasses⟩ := outputs_of_validate h
  have hsupports {s : Snippet} (hs : s.IsOffered) : stack.Supports (stack.resolve s) :=
    supports_resolve hresources hconditions hs
  have hparts : ∀ e ∈ definitions, ∀ s,
      s ∈ e.2.properties ∨ s ∈ e.2.metadata ∨ s ∈ e.2.updatePolicy ∨ s ∈ e.2.externalId →
        s.IsOffered := by
    rintro e he s (hs | hs | hs | hs)
    · exact isOffered_of_passes ((hchecked e he).properties s hs)
    · exact isOffered_of_passes ((hchecked e he).metadata s hs)
    · exact isOffered_of_passes ((hchecked e he).updatePolicy s hs)
    · exact isOffered_of_passes ((hchecked e he).externalId s hs)
  refine ⟨hconditions, ⟨definitions, hdefinitions, fun e he => ⟨hparts e he, ?_⟩, ?_⟩,
    outputs, houtputs, fun e he => ?_, ?_⟩
  · intro before henabled later
    refine (SupportsParts.freeze ?_ {}).run_memoAfter later
    have hpart := fun s hs => hsupports (hparts e he s hs)
    refine ⟨fun s hs => hpart s (.inl hs), fun s hs => hpart s (.inr (.inl hs)),
      fun s hs => hpart s (.inr (.inr (.inl hs))), fun s hs => hpart s (.inr (.inr (.inr hs))),
      fun s hs => ?_⟩
    rw [hs] at henabled
    exact supports_resolve_of_isEnabled henabled
  · intro hc later
    refine Supports.run_memoAfter (.bind_lift hdefinitions (.filterM fun e he => ?_)) later
    exact supports_isEnabled hresources hconditions (hc e he)
  · have hvalue := isOffered_of_passes (hpasses e he)
    exact ⟨hvalue, (hsupports hvalue).run_memoAfter⟩
  · intro hc later
    refine Supports.run_memoAfter (.bind_lift houtputs (.filterM fun e he => ?_)) later
    exact supports_isEnabled hresources hconditions (hc e he)

theorem supported_of_server :
    ∃ t stack, Template.ofValue (.map [("heat_template_version", .text "2017-09-01"),
        ("resources", .map [("server", .map [("type", .text "Server"),
          ("condition", .map [("equals", .list [.text "live", .text "live"])]),
          ("properties", .map [("image", .map [("get_file", .text "image")])])])])]) = .ok t ∧
      make ⟨"s"⟩ "s" (t.withFiles [("image", "i")]) [] (StaticResources.toResources []) =
        .ok stack ∧
      (stack.validate.run (stack.memoAfter [])).1 = .ok () ∧
      ∃ d, stack.template.resourceDefinitions stack.id = .ok [("server", d)] ∧
        ((stack.isEnabled d.condition).run (stack.memoAfter [])).1 = .ok true ∧
        Result.Supported ((d.freeze stack {}).run (stack.memoAfter [])).1 := by
  have hfrozen (stack : Stack) (d : ResourceDefinition) (hresources : stack.resources.Supported)
      (hvalidate : (stack.validate.run (stack.memoAfter [])).1 = .ok ())
      (hd : stack.template.resourceDefinitions stack.id = .ok [("server", d)])
      (henabled : ((stack.isEnabled d.condition).run (stack.memoAfter [])).1 = .ok true) :
      Result.Supported ((d.freeze stack {}).run (stack.memoAfter [])).1 := by
    obtain ⟨-, ⟨definitions, hdefinitions, hfreeze, -⟩, -⟩ :=
      supported_of_validate stack hresources [] hvalidate
    obtain rfl : [("server", d)] = definitions := Except.ok.inj (hd.symm.trans hdefinitions)
    exact (hfreeze ("server", d) (List.mem_singleton_self _)).2 [] henabled []
  exact ⟨_, _, rfl, rfl, rfl, _, rfl, rfl,
    hfrozen _ _ (StaticResources.supported []) rfl rfl rfl⟩

/-- Validation does not look into the condition of a resource, so a function that is not offered
there is only found when it is needed. -/
theorem unsupported_of_validate :
    ∃ t stack, Template.ofValue (.map [("heat_template_version", .text "2017-09-01"),
        ("resources", .map [("server", .map [("type", .text "Server"),
          ("condition", .map [("get_file", .text "image")])])])]) = .ok t ∧
      make ⟨"s"⟩ "s" t [] (StaticResources.toResources []) = .ok stack ∧
      (stack.validate.run []).1 = .ok () ∧
      ∃ e, (stack.resourceDefinitions.run []).1 = .error e ∧ e.isUnsupported = true :=
  ⟨_, _, rfl, rfl, rfl, _, rfl, rfl⟩

end Stack

end Orchestration
