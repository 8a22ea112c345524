import Orchestration.Proofs.Snippets.Calls
import Orchestration.Proofs.Snippets.Reading

namespace Orchestration

def Intrinsic.readsResources : Intrinsic → Bool
  | resource | attributeOf => true
  | _ => false

namespace Form

def plain? : Form → Option Intrinsic
  | parameter => some .parameter
  | resource => some .resource
  | attributeOf => some .attributeOf
  | file => some .file
  | mapping => some .mapping
  | select => some .select
  | memberList => some .memberList
  | loop zips => some (.loop zips)
  | merge => some .merge
  | rename => some .rename
  | filter => some .filter
  | concat unique => some (.concat unique)
  | contains => some .contains
  | join multiple => some (.join multiple)
  | split _ => some .split
  | replaceList => some .replaceList
  | replaceMap strictness => some (.replaceMap strictness)
  | base64 => some .base64
  | digest => some .digest
  | equals => some .equals
  | connective c => some (.connective c)
  | choice => some .choice
  | condition => some .condition
  | reference | dottedAttribute | facade => none

inductive Builds (site : Site) : Form → Snippet → Intrinsic → Snippet → Prop
  | plain {form args fn} :
    form.plain? = some fn → form.checkArity site args = .ok () →
    form.checkArgs site args = .ok () → Builds site form args fn args
  | referredResource {name} :
    site.inConditions = false → site.template.hasResource name = true →
    Builds site reference (.text name) .resource (.text name)
  | referredParameter {args} :
    (∀ name, args = .text name → site.inConditions = false →
      site.template.hasResource name = false) →
    parameter.checkArgs site args = .ok () → Builds site reference args .parameter args
  | dotted {written name field} :
    Text.splitOnce? '.' written.toList = some (name, field) →
    Builds site dottedAttribute (.text written) .attributeOf
      (.list [.text (String.ofList name), .text (String.ofList field)])
  | pair {name field} :
    Builds site dottedAttribute (.list [.text name, field]) .attributeOf (.list [.text name, field])
  | facade {args field} :
    args.text?.bind FacadeField.ofText? = some field → Builds site facade args (.facade field) args

variable {site : Site} {form : Form} {fn fn' : Intrinsic} {args args' : Snippet}

theorem buildPlain_eq_ok_iff : buildPlain site form fn args = .ok (fn', args') ↔
    form.checkArity site args = .ok () ∧ form.checkArgs site args = .ok () ∧
      fn' = fn ∧ args' = args := by
  refine ⟨fun h => ?_, ?_⟩
  · obtain ⟨_, harity, h⟩ := Run.exists_of_bind_ok h
    obtain ⟨_, hargs, h⟩ := Run.exists_of_bind_ok h
    cases h
    exact ⟨harity, hargs, rfl, rfl⟩
  · rintro ⟨harity, hargs, rfl, rfl⟩
    exact (Run.ok_bind harity).trans (Run.ok_bind hargs)

theorem build_of_plain? (h : form.plain? = some fn) :
    form.build site args = buildPlain site form fn args := by
  cases form <;> cases h <;> rfl

theorem checkAttribute_eq_ok_iff : site.checkAttribute form args = .ok () ↔
    ∃ name field rest, args = .list (.text name :: field :: rest) := by
  constructor
  · intro h
    unfold Site.checkAttribute at h
    split at h
    · exact ⟨_, _, _, rfl⟩
    · cases h
    · cases h
  · rintro ⟨name, field, rest, rfl⟩
    rfl

theorem build_reference_eq_ok_iff :
    build site args reference = .ok (fn, args') ↔ Builds site reference args fn args' := by
  constructor
  · intro h
    have hparameter (h : buildParameter site args = .ok (fn, args'))
        (hno : ∀ name, args = .text name → site.inConditions = false →
          site.template.hasResource name = false) : Builds site reference args fn args' := by
      obtain ⟨-, hargs, rfl, rfl⟩ := buildPlain_eq_ok_iff.1 h
      exact .referredParameter hno hargs
    simp only [build] at h
    split at h
    · next name =>
      split at h
      · next hres =>
        cases h
        simp only [Bool.and_eq_true, Bool.not_eq_true'] at hres
        exact .referredResource hres.1 hres.2
      · next hres =>
        refine hparameter h ?_
        rintro _ ⟨⟩ hmode
        simpa [hmode] using hres
    · next hno => exact hparameter h fun name hname => absurd hname (hno name)
  · intro h
    simp only [build]
    cases h with
    | plain hp => cases hp
    | referredResource hmode hres => simp [hmode, hres]; rfl
    | referredParameter hno hargs =>
      have hbuild : buildParameter site args = .ok (.parameter, args) :=
        buildPlain_eq_ok_iff.2 ⟨rfl, hargs, rfl, rfl⟩
      split
      · next name =>
        split
        · next hres =>
          simp only [Bool.and_eq_true, Bool.not_eq_true'] at hres
          simp [hno name rfl hres.1] at hres
        · exact hbuild
      · exact hbuild

theorem build_dotted_eq_ok_iff :
    build site args dottedAttribute = .ok (fn, args') ↔
      Builds site dottedAttribute args fn args' := by
  constructor
  · intro h
    simp only [build, buildDotted] at h
    split at h
    · split at h
      · next hsplit =>
        cases h
        exact .dotted hsplit
      · cases h
    · obtain ⟨_, hargs, h⟩ := Run.exists_of_bind_ok h
      cases h
      obtain ⟨_, _, _, hargs⟩ := checkAttribute_eq_ok_iff.1 hargs
      cases hargs
      exact .pair
    · cases h
  · intro h
    simp only [build, buildDotted]
    cases h with
    | plain hp => cases hp
    | dotted hsplit => simp only [hsplit]; rfl
    | pair => rfl

theorem build_facade_eq_ok_iff :
    build site args facade = .ok (fn, args') ↔ Builds site facade args fn args' := by
  constructor
  · intro h
    simp only [build] at h
    split at h
    · next hfield =>
      cases h
      exact .facade hfield
    · cases h
  · intro h
    simp only [build]
    cases h with
    | plain hp => cases hp
    | facade hfield => simp only [hfield]; rfl

theorem build_eq_ok_iff :
    form.build site args = .ok (fn, args') ↔ form.Builds site args fn args' := by
  cases hp : form.plain? with
  | some plain =>
    rw [build_of_plain? hp, buildPlain_eq_ok_iff]
    constructor
    · rintro ⟨harity, hargs, rfl, rfl⟩
      exact .plain hp harity hargs
    · intro h
      cases h with
      | plain hp' harity hargs =>
        rw [hp] at hp'
        exact ⟨harity, hargs, (Option.some.inj hp').symm, rfl⟩
      | _ => cases hp
  | none =>
    cases form with
    | reference => exact build_reference_eq_ok_iff
    | dottedAttribute => exact build_dotted_eq_ok_iff
    | facade => exact build_facade_eq_ok_iff
    | _ => cases hp

theorem Builds.args_eq (h : form.Builds site args fn args') :
    args' = args ∨ ∃ name field, args' = .list [.text name, .text field] := by
  cases h with
  | dotted => exact .inr ⟨_, _, rfl⟩
  | _ => exact .inl rfl

theorem Builds.resource (h : form.Builds site args .resource args') :
    ∃ name, args' = .text name := by
  cases h with
  | @plain form _ _ hp _ hargs =>
    cases form with
    | resource =>
      cases args with
      | scalar s =>
        cases s with
        | text name => exact ⟨name, rfl⟩
        | _ => cases hargs
      | _ => cases hargs
    | _ => cases hp
  | referredResource => exact ⟨_, rfl⟩

def mayReadResources : Form → Bool
  | resource | reference | attributeOf | dottedAttribute => true
  | _ => false

theorem Builds.readsResources_eq_false (h : form.Builds site args fn args')
    (hf : form.mayReadResources = false) : fn.readsResources = false := by
  cases h with
  | plain hp => cases form <;> cases hp <;> first | rfl | cases hf
  | facade => rfl
  | _ => cases hf

end Form

namespace Version

variable {version : Version} {c : Bool} {name : String} {form : Form}

theorem mem_registry_of_reading (h : version.reading c name = .function form) :
    (name, .function form) ∈ version.registry c := by
  unfold reading at h
  split at h
  · next hget =>
    cases h
    exact Fields.mem_of_get? hget
  · cases h
  · cases h
  · split at h <;> cases h

theorem mayReadResources_of_reading (h : version.reading true name = .function form) :
    form.mayReadResources = false := by
  have hall : ∀ e ∈ version.conditionFunctions, ∀ form, e.2 = .function form →
      form.mayReadResources = false := by
    cases version with
    | cfn v =>
      simp [Version.conditionFunctions, CfnVersion.conditionFunctions, Form.mayReadResources]
    | hot v =>
      cases v <;> simp [Version.conditionFunctions, HotVersion.conditionFunctions, HotVersion.rank,
        HotVersion.all, Form.mayReadResources]
  exact hall _ (mem_registry_of_reading h) form rfl

end Version

section

variable (t : Template) (stack : StackId) (c : Bool) (P : Call → Snippet → Prop)

structure Makes : Prop where
  function {name form args fn args'} :
    t.version.reading c name = .function form → form.Builds ⟨t, c, name⟩ args fn args' →
    P ⟨stack, name, fn⟩ args'
  negation {name args} : t.version.reading c name = .negation → P ⟨stack, name, .negation⟩ args
  unavailable {name args reason} :
    t.version.reading c name = .unavailable reason →
    P ⟨stack, name, .unavailable t.version reason⟩ args

variable {t stack P} {m : Bool}

open Snippet (Every EveryItem EveryField)

mutual

/-- Below the name of a condition the parser reads conditions, and never anything else again. -/
theorem Reads.every (hm : ∀ c, m ≤ c → Makes t stack c P) {p : Parser} {v : Value}
    {s : Snippet} :
    Reads t stack p v s → m ≤ p.inConditions → Every P s
  | .scalar, _ => trivial
  | .list h, hp => h.every hm hp
  | .map _ h, hp => h.every hm hp
  | .function hreading h hbuild, hp => by
    have hbuilds := Form.build_eq_ok_iff.1 hbuild
    have hargs := h.every hm hp
    refine ⟨(hm _ hp).function hreading hbuilds, ?_⟩
    obtain rfl | ⟨_, _, rfl⟩ := hbuilds.args_eq
    · exact hargs
    · exact ⟨trivial, trivial, trivial⟩
  | .negation hreading _ h, hp => ⟨(hm _ hp).negation hreading, h.every hm hp⟩
  | .negationOfItem hreading _ h, hp => ⟨(hm _ hp).negation hreading, h.every hm hp, trivial⟩
  | .unavailable hreading h, hp => ⟨(hm _ hp).unavailable hreading, h.every hm hp⟩

theorem ReadsItems.every (hm : ∀ c, m ≤ c → Makes t stack c P) {p : Parser}
    {vs : List Value} {ss : List Snippet} :
    ReadsItems t stack p vs ss → m ≤ p.inConditions → EveryItem P ss
  | .nil, _ => trivial
  | .cons h hs, hp => ⟨h.every hm hp, hs.every hm hp⟩

theorem ReadsFields.every (hm : ∀ c, m ≤ c → Makes t stack c P) {p : Parser}
    {vs : List (String × Value)} {ss : List (String × Snippet)} :
    ReadsFields t stack p vs ss → m ≤ p.inConditions → EveryField P ss
  | .nil, _ => trivial
  | .cons h hs, hp => ⟨h.every hm hp, hs.every hm hp⟩

theorem ReadsOperand.every (hm : ∀ c, m ≤ c → Makes t stack c P) {p : Parser} {v : Value}
    {s : Snippet} :
    ReadsOperand t stack p v s → m ≤ p.inConditions → Every P s
  | .plain _ h, hp => h.every hm hp
  | .named _ _ h, _ => h.every hm (Bool.le_true m)

end

end

namespace Template

variable {t : Template} {stack : StackId} {p : Parser} {v : Value} {s : Snippet}

theorem every_names_resource (h : t.snippet p stack v = .ok s) :
    s.Every fun c args => c.fn = .resource → ∃ name, args = .text name := by
  refine (snippet_eq_ok_iff.1 h).every (m := false) (fun c _ => ?_) (Bool.false_le _)
  refine ⟨fun _ hbuilds hfn => ?_, fun _ => nofun, fun _ => nofun⟩
  subst hfn
  exact hbuilds.resource

theorem every_readsResources_eq_false (h : t.snippet p stack v = .ok s)
    (hp : p.inConditions = true) : s.Every fun c _ => c.fn.readsResources = false := by
  refine (snippet_eq_ok_iff.1 h).every (m := true) (fun c hc => ?_) (by rw [hp])
  obtain rfl : c = true := Bool.eq_true_of_true_le hc
  refine ⟨fun hreading hbuilds => ?_, fun _ => rfl, fun _ => rfl⟩
  exact hbuilds.readsResources_eq_false (Version.mayReadResources_of_reading hreading)

end Template

end Orchestration
