import Orchestration.Proofs.References.Noninterference
import Orchestration.Proofs.Validation.Admission

namespace Orchestration

namespace Snippet

variable (resource : String)

mutual

theorem attributesOf_eq : ∀ s : Snippet,
    s.attributesOf resource = (s.attributes.filter (·.1 = resource)).map (·.2)
  | .scalar _ => rfl
  | .list items => itemAttributesOf_eq items
  | .map fields => fieldAttributesOf_eq fields
  | .call c args => by
    simp only [attributesOf, attributes, List.filter_append, List.map_append, attributesOf_eq args]
    congr 1
    cases targetAttribute? c.fn args with
    | none => rfl
    | some e =>
      obtain ⟨name, field⟩ := e
      by_cases h : name = resource <;> simp [h]

theorem itemAttributesOf_eq : ∀ items : List Snippet,
    itemAttributesOf resource items =
      ((itemAttributes items).filter (·.1 = resource)).map (·.2)
  | [] => rfl
  | s :: rest => by
    simp only [itemAttributesOf, itemAttributes, List.filter_append, List.map_append,
      attributesOf_eq s, itemAttributesOf_eq rest]

theorem fieldAttributesOf_eq : ∀ fields : List (String × Snippet),
    fieldAttributesOf resource fields =
      ((fieldAttributes fields).filter (·.1 = resource)).map (·.2)
  | [] => rfl
  | (_, s) :: rest => by
    simp only [fieldAttributesOf, fieldAttributes, List.filter_append, List.map_append,
      attributesOf_eq s, fieldAttributesOf_eq rest]

end

theorem mem_attributesOf {resource : String} {s : Snippet} {field : String} :
    field ∈ s.attributesOf resource ↔ (resource, field) ∈ s.attributes := by
  simp [attributesOf_eq]

section

variable (P : String × String → Prop)

mutual

theorem every_targetAttribute_iff : ∀ s : Snippet,
    Every (fun c args => ∀ e ∈ targetAttribute? c.fn args, P e) s ↔ ∀ e ∈ s.attributes, P e
  | .scalar _ => by simp [Every, attributes]
  | .list items => everyItem_targetAttribute_iff items
  | .map fields => everyField_targetAttribute_iff fields
  | .call c args => by
    simp only [Every, attributes, List.mem_append, or_imp, forall_and]
    rw [and_comm]
    refine and_congr (every_targetAttribute_iff args) ?_
    cases targetAttribute? c.fn args <;> simp

theorem everyItem_targetAttribute_iff : ∀ items : List Snippet,
    EveryItem (fun c args => ∀ e ∈ targetAttribute? c.fn args, P e) items ↔
      ∀ e ∈ itemAttributes items, P e
  | [] => by simp [EveryItem, itemAttributes]
  | s :: rest => by
    simp only [EveryItem, itemAttributes, List.mem_append, or_imp, forall_and]
    exact and_congr (every_targetAttribute_iff s) (everyItem_targetAttribute_iff rest)

theorem everyField_targetAttribute_iff : ∀ fields : List (String × Snippet),
    EveryField (fun c args => ∀ e ∈ targetAttribute? c.fn args, P e) fields ↔
      ∀ e ∈ fieldAttributes fields, P e
  | [] => by simp [EveryField, fieldAttributes]
  | (_, s) :: rest => by
    simp only [EveryField, fieldAttributes, List.mem_append, or_imp, forall_and]
    exact and_congr (every_targetAttribute_iff s) (everyField_targetAttribute_iff rest)

end

end

theorem target?_of_targetAttribute? {fn : Intrinsic} {args : Snippet} {e : String × String}
    (h : targetAttribute? fn args = some e) : target? fn args = some e.1 := by
  unfold targetAttribute? at h
  split at h
  · cases h
    rfl
  · cases h

theorem mem_dependencies_of_mem_attributes {s : Snippet} (path : String) {e : String × String}
    (h : e ∈ s.attributes) : e.1 ∈ (s.dependencies path).map (·.resource) := by
  let P : String → Prop := (· ∈ (s.dependencies path).map (·.resource))
  have htarget : s.Every fun c args => ∀ name ∈ target? c.fn args, P name :=
    (every_target_iff P s path).2 fun d hd => List.mem_map_of_mem hd
  refine (every_targetAttribute_iff (fun e => P e.1) s).1 (htarget.imp ?_) e h
  exact fun _ _ hc e he => hc e.1 (target?_of_targetAttribute? he)

def NamesAttribute (c : Call) (args : Snippet) : Prop :=
  c.fn = .attributeOf → ∃ target field path, args = .list (target :: .text field :: path)

end Snippet

structure Resource.AlikeOn (fields : List String) (r r' : Resource) : Prop where
  refId : r.refId = r'.refId
  available : r.available = r'.available
  attributeValue : ∀ field ∈ fields, r.attributeValue field = r'.attributeValue field

structure StaticResource.AlikeOn (fields : List String) (r r' : StaticResource) : Prop where
  name : r.name = r'.name
  refId : r.refId = r'.refId
  available : r.available = r'.available
  attributes : ∀ field ∈ fields, r.attributes.get? field = r'.attributes.get? field

theorem StaticResource.AlikeOn.toResource {fields : List String} {r r' : StaticResource}
    (h : r.AlikeOn fields r') : r.toResource.AlikeOn fields r'.toResource := by
  refine ⟨h.refId, h.available, fun field hfield => ?_⟩
  simp only [StaticResource.toResource, h.attributes field hfield, h.name]

/-- Two sets of live resources have the same names, with resources that differ in attributes that
are not listed for them only. -/
def StaticResources.AgreeOn (fields : String → List String) (rs rs' : StaticResources) : Prop :=
  ∀ name, Option.Rel (StaticResource.AlikeOn (fields name)) (rs.get? name) (rs'.get? name)

theorem StaticResources.AgreeOn.toResources {fields : String → List String}
    {rs rs' : StaticResources} (h : rs.AgreeOn fields rs') (name : String) :
    Option.Rel (Resource.AlikeOn (fields name)) (rs.toResources.get? name)
      (rs'.toResources.get? name) := by
  have hname := h name
  simp only [StaticResources.toResources]
  generalize rs.get? name = r, rs'.get? name = r' at hname ⊢
  cases hname with
  | none => exact .none
  | some hr => exact .some hr.toResource

namespace Evaluation.Site

variable {stack : Stack} {others : Resources}

theorem attributeOf_text (site : Site) (stack : Stack) (target field : String)
    (path : List Snippet) :
    site.attributeOf (arguments stack (.list (.text target :: .text field :: path))) =
      ((site.stack.resources.get? target).filter (·.available)).elim (pure .null) fun r =>
        (operands stack path).mapM (·.value) >>= fun path =>
          (r.attributeAt field path : Inquiry Value) := by
  have hitems : (arguments stack (.list (.text target :: .text field :: path))).items =
      ⟨.text target, fun _ => pure (.text target)⟩ :: ⟨.text field, fun _ => pure (.text field)⟩ ::
        operands stack path := rfl
  rw [attributeOf, hitems]
  simp only [List.head?_cons, Option.bind_some, Snippet.text?]
  cases (site.stack.resources.get? target).filter (·.available) <;> rfl

theorem attributeOf_congr_of_alikeOn {fields : List String} {name target field : String}
    {path : List Snippet} (hfield : field ∈ fields)
    (h : Option.Rel (Resource.AlikeOn fields) (stack.resources.get? target) (others.get? target)) :
    attributeOf ⟨stack, name⟩ (arguments stack (.list (.text target :: .text field :: path))) =
      attributeOf ⟨stack.withResources others, name⟩
        (arguments stack (.list (.text target :: .text field :: path))) := by
  simp only [attributeOf_text, Stack.withResources]
  generalize stack.resources.get? target = r, others.get? target = r' at h ⊢
  cases h with
  | none => rfl
  | @some r r' h =>
    simp only [Option.filter_some, h.available]
    cases r'.available with
    | false => rfl
    | true =>
      simp only [↓reduceIte, Option.elim_some, Resource.attributeAt, h.attributeValue field hfield]

end Evaluation.Site

namespace Stack

open Evaluation (SameCall Site.resource_congr Site.attributeOf_congr_of_alikeOn)
open Snippet (Every NamesAttribute)

variable {stack : Stack}

theorem sameCall_of_alikeOn {others : Resources} {fields : String → List String} {c : Call}
    {args : Snippet} (h : ∀ name, Option.Rel (Resource.AlikeOn (fields name))
      (stack.resources.get? name) (others.get? name))
    (hshape : Shaped c args) (hnames : NamesAttribute c args)
    (hfields : ∀ e ∈ Snippet.targetAttribute? c.fn args, e.2 ∈ fields e.1) :
    SameCall stack others c args := by
  obtain ⟨_, name, fn⟩ := c
  cases fn with
  | resource =>
    obtain ⟨target, rfl⟩ := hshape.resource rfl
    exact Site.resource_congr (h target) fun _ _ hr => hr.refId
  | attributeOf =>
    obtain ⟨target, _, _, rfl⟩ := hshape.attributeOf rfl
    obtain ⟨_, field, path, hargs⟩ := hnames rfl
    cases hargs
    exact Site.attributeOf_congr_of_alikeOn (hfields (target, field) rfl) (h target)
  | _ => rfl

/-- Nothing else of the attributes of live resources than what is listed for a snippet can be told
from it, if every call in it that reads an attribute names it by a text. The attributes that are
listed for a resource are those that are paired with it, and only resources that the snippet refers
to have any. -/
theorem attributes_complete {stack : Stack} (h : stack.Proper) {s : Snippet}
    (hs : stack.template.ReadFor stack.id s) (hnames : s.Every NamesAttribute) :
    (∀ name, s.attributesOf name = (s.attributes.filter (·.1 = name)).map (·.2)) ∧
    (∀ name path, s.attributesOf name ≠ [] → name ∈ (s.dependencies path).map (·.resource)) ∧
    ∀ rs rs' : StaticResources, rs.AgreeOn s.attributesOf rs' →
      (stack.withResources rs.toResources).SameValue (stack.withResources rs'.toResources) s := by
  refine ⟨fun name => Snippet.attributesOf_eq name s, fun name path hne => ?_,
    fun rs rs' hagree => ?_⟩
  · obtain ⟨field, hfield⟩ := List.exists_mem_of_ne_nil _ hne
    exact Snippet.mem_dependencies_of_mem_attributes path (Snippet.mem_attributesOf.1 hfield)
  · have hcalls : s.Every fun c args => NamesAttribute c args ∧
        ∀ e ∈ Snippet.targetAttribute? c.fn args, e.2 ∈ s.attributesOf e.1 :=
      Every.imp₂ (fun _ _ => And.intro) s hnames
        ((Snippet.every_targetAttribute_iff (fun e => e.2 ∈ s.attributesOf e.1) s).2
          fun e he => Snippet.mem_attributesOf.2 he)
    have hsame : s.Every (SameCall (stack.withResources rs.toResources) rs'.toResources) :=
      Every.imp₂ (fun _ _ hshape hc => sameCall_of_alikeOn hagree.toResources hshape hc.1 hc.2) s
        hs.every_shaped hcalls
    have hproper : (stack.withResources rs.toResources).Proper := h
    exact sameValue_of_every hproper hsame

/-- The place of an address among those of a server is an attribute too. The load of the server is
not listed, so it cannot be told. -/
theorem attributes_complete_of_address :
    let live (load : String) : StaticResources := [("server", ⟨"server", .text "i",
      [("load", .text load), ("place", .integer 1),
        ("addresses", .list [.text "10.0.0.1", .text "10.0.0.2"])], true⟩)]
    let address : Value := .map [("get_attr", .list [.text "server", .text "addresses",
      .map [("get_attr", .list [.text "server", .text "place"])]])]
    ∃ t stack s, Template.ofValue (.map [("heat_template_version", .text "2016-10-14"),
        ("resources", .map [("server", .map [("type", .text "T")])])]) = .ok t ∧
      make ⟨"s"⟩ "s" t [] (live "low").toResources = .ok stack ∧
      t.snippet .ordinary ⟨"s"⟩ address = .ok s ∧ s.Every NamesAttribute ∧
      s.attributesOf "server" = ["place", "addresses"] ∧
      (live "low").AgreeOn s.attributesOf (live "high") ∧
      (stack.withResources (live "low").toResources).SameValue
        (stack.withResources (live "high").toResources) s := by
  intro live address
  have hagree (fields : String → List String) (hload : "load" ∉ fields "server") :
      (live "low").AgreeOn fields (live "high") := by
    intro name
    simp only [live, Fields.get?]
    split
    · next hname =>
      obtain rfl := hname
      refine .some ⟨rfl, rfl, rfl, fun field hfield => ?_⟩
      have hne : "load" ≠ field := fun h => hload (h ▸ hfield)
      simp [Fields.get?, hne]
    · exact .none
  let call (args : List Snippet) : Snippet :=
    .call ⟨⟨"s"⟩, "get_attr", .attributeOf⟩ (.list (.text "server" :: args))
  have hnames : (call [.text "addresses", call [.text "place"]]).Every NamesAttribute := by
    have hplace : (call [.text "place"]).Every NamesAttribute :=
      ⟨fun _ => ⟨_, _, _, rfl⟩, trivial, trivial, trivial⟩
    exact ⟨fun _ => ⟨_, _, _, rfl⟩, trivial, trivial, hplace, trivial⟩
  refine ⟨_, _, _, rfl, rfl, rfl, hnames, rfl, hagree _ (by decide), ?_⟩
  refine (attributes_complete ?_ (@Template.ReadFor.snippet _ _ _ .ordinary address ?_)
    hnames).2.2 _ _ (hagree _ (by decide))
  · exact rfl
  · exact rfl

end Stack

end Orchestration
