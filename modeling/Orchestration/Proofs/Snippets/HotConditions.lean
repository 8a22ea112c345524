import Orchestration.Proofs.Snippets.Made

/-!
The functions that HOT offers in the definitions of conditions. They are offered everywhere else
too, and their arguments may be read anew as something else, as long as it passes the same checks.
-/

namespace Orchestration

namespace Form

def IsHotCondition (form : Form) : Prop :=
  form = parameter ∨ form = equals ∨ form = contains ∨ ∃ c, form = connective c

end Form

namespace Version

variable {version : Version} {c : Bool} {name : String}

theorem mem_registry_of_reading_negation (h : version.reading c name = .negation) :
    (name, .negation) ∈ version.registry c := by
  unfold reading at h
  split at h
  · cases h
  · next hget => exact Fields.mem_of_get? hget
  · cases h
  · split at h <;> cases h

theorem exists_hot_of_negation (h : version.reading false name = .negation) :
    ∃ v, version = .hot v := by
  cases version with
  | hot v => exact ⟨v, rfl⟩
  | cfn v =>
    have hmem : (name, .negation) ∈ CfnVersion.functions := mem_registry_of_reading_negation h
    simp [CfnVersion.functions] at hmem

end Version

namespace HotVersion

variable {v : HotVersion} {name : String} {form : Form}

theorem reading_eq_of_mem_keys (h : name ∈ Fields.keys ((Version.hot v).registry true)) :
    (Version.hot v).reading true name = (Version.hot v).reading false name := by
  have hall : ∀ name ∈ Fields.keys v.conditionFunctions,
      (Version.hot v).reading true name = (Version.hot v).reading false name := by
    cases v <;> simp [conditionFunctions, rank, all, Fields.keys]
    all_goals and_intros <;> rfl
  exact hall name h

theorem reading_of_reading_function (h : (Version.hot v).reading true name = .function form) :
    (Version.hot v).reading false name = .function form ∧ form.IsHotCondition := by
  have hmem := Version.mem_registry_of_reading h
  refine ⟨?_, ?_⟩
  · rw [← reading_eq_of_mem_keys (List.mem_map.2 ⟨_, hmem, rfl⟩), h]
  · have hall : ∀ e ∈ v.conditionFunctions, ∀ form, e.2 = .function form → form.IsHotCondition := by
      cases v <;> simp [conditionFunctions, rank, all, Form.IsHotCondition]
    exact hall _ hmem form rfl

theorem reading_of_reading_negation (h : (Version.hot v).reading true name = .negation) :
    (Version.hot v).reading false name = .negation := by
  have hmem := Version.mem_registry_of_reading_negation h
  rw [← reading_eq_of_mem_keys (List.mem_map.2 ⟨_, hmem, rfl⟩), h]

/-- What is data in the definition of a condition is data elsewhere, or a function that is not
offered. -/
theorem reading_of_reading_data (h : (Version.hot v).reading true name = .data) :
    (Version.hot v).reading false name = .data ∨
      ∃ reason, (Version.hot v).reading false name = .unavailable reason := by
  have hoffers : v.functions.offers name = false := by
    unfold Version.reading Version.unavailable? at h
    split at h
    · cases h
    · cases h
    · cases h
    · split at h
      · cases h
      · next hnone =>
        split at hnone
        · cases hnone
        · next hoffers =>
          have hoffers : ¬(Version.hot v).functions.offers name = true := by simpa using hoffers
          exact Bool.eq_false_iff.2 hoffers
  unfold Version.reading
  split
  · next hget =>
    have hget : v.functions.get? name = _ := hget
    simp [Registry.offers, hget, Entry.isUsable] at hoffers
  · next hget =>
    have hget : v.functions.get? name = _ := hget
    simp [Registry.offers, hget, Entry.isUsable] at hoffers
  · exact .inr ⟨_, rfl⟩
  · split
    · exact .inr ⟨_, rfl⟩
    · exact .inl rfl

end HotVersion

namespace Form

open Snippet (text?)

/-- One snippet passes where another one does in the checks of condition functions. A call may stand
where data stood, but not the other way. -/
inductive PassesFor : Snippet → Snippet → Prop
  | scalar {s} : PassesFor (.scalar s) (.scalar s)
  | list {items items'} :
    items'.map text? = items.map text? → PassesFor (.list items') (.list items)
  | map {fields fields'} : PassesFor (.map fields') (.map fields)
  | callForMap {c args fields} : PassesFor (.call c args) (.map fields)
  | call {c c' args args'} : PassesFor (.call c' args') (.call c args)

variable {site : Site} {form : Form} {fn : Intrinsic} {args args' : Snippet} {c : Bool}

theorem PassesFor.text?_eq (h : PassesFor args' args) : args'.text? = args.text? := by
  cases h <;> rfl

theorem PassesFor.checkArity_eq (h : PassesFor args' args) :
    form.checkArity ⟨site.template, c, site.name⟩ args' = form.checkArity site args := by
  unfold checkArity
  cases form.arity? with
  | none => rfl
  | some accepts =>
    cases h with
    | list htexts =>
      have hlength : _ = _ := congrArg List.length htexts
      rw [List.length_map, List.length_map] at hlength
      dsimp only
      rw [hlength]
      rfl
    | _ => rfl

theorem checkCondition_eq_of_text? {s s' : Snippet} (h : s'.text? = s.text?) :
    Site.checkCondition ⟨site.template, c, site.name⟩ s' = site.checkCondition s := by
  have hnone {site : Site} {s : Snippet} (h : s.text? = none) : site.checkCondition s = .ok () := by
    cases s with
    | scalar s =>
      cases s with
      | text name => cases h
      | _ => rfl
    | _ => rfl
  have hsome {s : Snippet} {name : String} (h : s.text? = some name) : s = .text name := by
    cases s with
    | scalar s =>
      cases s with
      | text name => rw [Option.some.inj h]
      | _ => cases h
    | _ => cases h
  cases ht : s.text? with
  | none => rw [hnone ht, hnone (h.trans ht)]
  | some name =>
    rw [hsome ht, hsome (h.trans ht)]
    rfl

theorem checkConditions_eq_of_texts {items items' : List Snippet}
    (h : items'.map text? = items.map text?) :
    items'.forM (Site.checkCondition ⟨site.template, c, site.name⟩) =
      items.forM site.checkCondition := by
  induction items generalizing items' with
  | nil =>
    cases List.map_eq_nil_iff.1 h
    rfl
  | cons s rest ih =>
    obtain ⟨s', rest', rfl, hs, hrest⟩ := List.map_eq_cons_iff.1 h
    calc Site.checkCondition ⟨site.template, c, site.name⟩ s' >>=
          (fun _ => rest'.forM (Site.checkCondition ⟨site.template, c, site.name⟩))
      _ = site.checkCondition s >>= fun _ => rest.forM site.checkCondition := by
        rw [checkCondition_eq_of_text? hs, ih hrest]

theorem PassesFor.checkParameter (h : PassesFor args' args)
    (hargs : parameter.checkArgs site args = .ok ()) :
    parameter.checkArgs ⟨site.template, c, site.name⟩ args' = .ok () := by
  cases h with
  | @scalar s => cases s <;> first | rfl | cases hargs
  | @list items items' htexts =>
    cases items' with
    | nil =>
      cases List.map_eq_nil_iff.1 htexts.symm
      cases hargs
    | cons => rfl
  | map => cases hargs
  | callForMap => cases hargs
  | call => rfl

theorem PassesFor.checkConnective {connective : Connective} (h : PassesFor args' args)
    (hargs : (Form.connective connective).checkArgs site args = .ok ()) :
    (Form.connective connective).checkArgs ⟨site.template, c, site.name⟩ args' = .ok () := by
  cases h with
  | list htexts => exact (checkConditions_eq_of_texts htexts).trans hargs
  | _ => rfl

theorem IsHotCondition.args_eq (hf : form.IsHotCondition) (h : form.Builds site args fn args') :
    args' = args := by
  obtain rfl | rfl | rfl | ⟨connective, rfl⟩ := hf <;> (cases h; rfl)

theorem IsHotCondition.builds_of_passesFor (hf : form.IsHotCondition)
    (h : form.Builds site args fn args') {other : Snippet}
    (hother : PassesFor other args') :
    form.Builds ⟨site.template, c, site.name⟩ other fn other := by
  obtain rfl | rfl | rfl | ⟨connective, rfl⟩ := hf
  · cases h with
    | plain hp harity hargs => exact .plain hp rfl (hother.checkParameter hargs)
  · cases h with
    | plain hp harity hargs => exact .plain hp (hother.checkArity_eq.trans harity) rfl
  · cases h with
    | plain hp harity hargs => exact .plain hp (hother.checkArity_eq.trans harity) rfl
  · cases h with
    | plain hp harity hargs =>
      exact .plain hp (hother.checkArity_eq.trans harity) (hother.checkConnective hargs)

end Form

end Orchestration
