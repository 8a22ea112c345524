import Orchestration.Proofs.Conditions.History
import Orchestration.Proofs.Migration.ReadOrder
import Orchestration.Proofs.References.Names
import Orchestration.Proofs.Snippets.Made
import Orchestration.Proofs.Snippets.Sections

namespace Orchestration

structure Resource.Alike (r r' : Resource) : Prop where
  refId : r.refId = r'.refId
  available : r.available = r'.available
  attributeValue : ∀ field, r.attributeValue field = r'.attributeValue field

def Resources.Agree (rs rs' : Resources) (name : String) : Prop :=
  Option.Rel Resource.Alike (rs.get? name) (rs'.get? name)

theorem Resource.Alike.attributeAt {r r' : Resource} (h : r.Alike r') (field : String)
    (path : List Value) : r.attributeAt field path = r'.attributeAt field path := by
  rw [Resource.attributeAt, Resource.attributeAt, h.attributeValue]

namespace Stack

def withResources (stack : Stack) (others : Resources) : Stack :=
  { stack with resources := others }

end Stack

namespace Evaluation

variable {stack : Stack} {others : Resources}

structure CannotTell (rs rs' : Resources) (c : Call) (args : Snippet) : Prop where
  named : c.fn = .resource → ∃ name, args = .text name
  agree : ∀ name ∈ Snippet.target? c.fn args, rs.Agree rs' name

def arguments (stack : Stack) (args : Snippet) : Arguments :=
  ⟨⟨args, fun _ => resolve stack args⟩, parts stack args⟩

def SameCall (stack : Stack) (others : Resources) (c : Call) (args : Snippet) : Prop :=
  Site.value ⟨stack, c.name⟩ (arguments stack args) c.fn =
    Site.value ⟨stack.withResources others, c.name⟩ (arguments stack args) c.fn

theorem head_arguments (args : Snippet) :
    ((arguments stack args).items.head?.bind (·.written.text?)) =
      Snippet.target? .attributeOf args := by
  cases args with
  | list items =>
    cases items with
    | nil => rfl
    | cons s rest =>
      cases s with
      | scalar s => cases s <;> rfl
      | _ => rfl
  | _ => rfl

namespace Site

variable {name : String} {args : Snippet}

theorem resource_congr {target : String} {R : Resource → Resource → Prop}
    (h : Option.Rel R (stack.resources.get? target) (others.get? target))
    (hid : ∀ r r', R r r' → r.refId = r'.refId) :
    resource ⟨stack, name⟩ (arguments stack (.text target)) =
      resource ⟨stack.withResources others, name⟩ (arguments stack (.text target)) := by
  have hid : (stack.resources.get? target).map (·.refId) = (others.get? target).map (·.refId) := by
    generalize stack.resources.get? target = r, others.get? target = r' at h ⊢
    cases h with
    | none => rfl
    | some h => exact congrArg some (hid _ _ h)
  exact congrArg (fun id => (pure (id.getD .null) : Inquiry Value)) hid

theorem attributeOf_congr
    (h : ∀ target ∈ Snippet.target? .attributeOf args, stack.resources.Agree others target) :
    attributeOf ⟨stack, name⟩ (arguments stack args) =
      attributeOf ⟨stack.withResources others, name⟩ (arguments stack args) := by
  simp only [attributeOf, head_arguments]
  cases ht : Snippet.target? .attributeOf args with
  | none => rfl
  | some target =>
    have hagree := h target ht
    unfold Resources.Agree at hagree
    simp only [Option.bind_some, Stack.withResources]
    generalize stack.resources.get? target = r, others.get? target = r' at hagree ⊢
    cases hagree with
    | none => rfl
    | @some _ r' h =>
      simp only [Option.filter_some, h.available]
      cases r'.available with
      | false => rfl
      | true =>
        simp only [↓reduceIte, h.attributeAt]
        rfl

theorem value_congr {c : Call} (h : CannotTell stack.resources others c args) :
    SameCall stack others c args := by
  unfold SameCall
  obtain ⟨_, name, fn⟩ := c
  cases fn with
  | resource =>
    obtain ⟨target, rfl⟩ := h.named rfl
    exact resource_congr (h.agree target rfl) fun _ _ h => h.refId
  | attributeOf => exact attributeOf_congr h.agree
  | _ => rfl

end Site

mutual

theorem resolve_congr : ∀ s : Snippet, s.Every (SameCall stack others) →
    resolve stack s = resolve (stack.withResources others) s
  | .scalar _, _ => rfl
  | .list items, h => by
    simp only [resolve]
    rw [operands_congr items h]
  | .map fields, h => by
    simp only [resolve]
    rw [fieldOperands_congr fields h]
  | .call c args, h => by
    obtain ⟨hvalue, hargs⟩ := h
    rw [SameCall, arguments] at hvalue
    simp only [resolve]
    rw [hvalue, resolve_congr args hargs, parts_congr args hargs]
    rfl

theorem parts_congr : ∀ s : Snippet, s.Every (SameCall stack others) →
    parts stack s = parts (stack.withResources others) s
  | .scalar _, _ => rfl
  | .list items, h => by
    simp only [parts]
    rw [operands_congr items h]
  | .map fields, h => by
    simp only [parts]
    rw [fieldOperands_congr fields h]
  | .call _ _, _ => rfl

theorem operands_congr : ∀ items : List Snippet,
    Snippet.EveryItem (SameCall stack others) items →
      operands stack items = operands (stack.withResources others) items
  | [], _ => rfl
  | s :: rest, h => by
    simp only [operands]
    rw [resolve_congr s h.1, operands_congr rest h.2]

theorem fieldOperands_congr : ∀ fields : List (String × Snippet),
    Snippet.EveryField (SameCall stack others) fields →
      fieldOperands stack fields = fieldOperands (stack.withResources others) fields
  | [], _ => rfl
  | (k, s) :: rest, h => by
    simp only [fieldOperands]
    rw [resolve_congr s h.1, fieldOperands_congr rest h.2]

end

end Evaluation

namespace Stack

open Evaluation (CannotTell)
open Snippet (Every)

variable {stack : Stack} {others : Resources}

theorem Proper.every_cannotTell (h : stack.Proper) (others : Resources) {name : String}
    {definition : Snippet} (hd : stack.conditions.get? name = some definition) :
    definition.Every (CannotTell stack.resources others) := by
  have hread := h.condition name
  rw [hd] at hread
  generalize stack.template.condition? name = v at hread
  cases hread with
  | some hread =>
    refine Every.imp (fun c args hc => ⟨fun hfn => ?_, fun target ht => ?_⟩)
      (Template.every_readsResources_eq_false hread rfl)
    · rw [hfn] at hc
      cases hc
    · obtain ⟨hfn, -⟩ | ⟨hfn, -⟩ := Snippet.target?_eq_some ht <;> rw [hfn] at hc <;> cases hc

theorem truthUnder_withResources (h : stack.Proper) (under : List String) (name : String) :
    (stack.withResources others).truthUnder under name = stack.truthUnder under name := by
  induction under, name using truthUnder.induct stack with
  | case1 under name hd =>
    have hd' : (stack.withResources others).conditions.get? name = none := hd
    rw [truthUnder_of_none hd, truthUnder_of_none hd']
  | case2 under name definition hd hu =>
    have hd' : (stack.withResources others).conditions.get? name = some definition := hd
    rw [truthUnder_of_mem hd hu, truthUnder_of_mem hd' hu]
  | case3 under name definition hd hu ih =>
    have hd' : (stack.withResources others).conditions.get? name = some definition := hd
    rw [truthUnder_of_notMem hd hu, truthUnder_of_notMem hd' hu]
    have htruth : Evaluation.truth (stack.withResources others) name definition =
        Evaluation.truth stack name definition := by
      have hresolve := Evaluation.resolve_congr definition
        ((h.every_cannotTell others hd).imp fun _ _ => Evaluation.Site.value_congr)
      cases definition with
      | call c args =>
        simp only [Evaluation.truth]
        rw [hresolve]
      | scalar s => cases s <;> rfl
      | _ => rfl
    rw [htruth]
    exact Inquiry.run_congr _ fun other _ => ih other

def SameValue (stack stack' : Stack) (s : Snippet) : Prop :=
  ∀ earlier earlier' : List Request,
    ((stack.resolve s).run (stack.memoAfter earlier)).1 =
      ((stack'.resolve s).run (stack'.memoAfter earlier')).1

theorem resolve_run_memoAfter (stack : Stack) (s : Snippet) (earlier : List Request) :
    ((stack.resolve s).run (stack.memoAfter earlier)).1 =
      (Evaluation.resolve stack s).run stack.truthOf :=
  (determines_run (Evaluation.resolve stack s)).run_memoAfter earlier

theorem sameValue_of_every (h : stack.Proper) {s : Snippet}
    (hs : s.Every (Evaluation.SameCall stack others)) :
    stack.SameValue (stack.withResources others) s := by
  intro earlier earlier'
  rw [resolve_run_memoAfter, resolve_run_memoAfter, ← Evaluation.resolve_congr s hs]
  exact (Inquiry.run_congr _ fun name _ => truthUnder_withResources h [] name).symm

theorem sameValue_withResources (h : stack.Proper) {s : Snippet}
    (hs : s.Every (CannotTell stack.resources others)) :
    stack.SameValue (stack.withResources others) s :=
  sameValue_of_every h (hs.imp fun _ _ => Evaluation.Site.value_congr)

theorem every_cannotTell_of_dependencies {p : Parser} {s : Snippet} (path : String)
    (h : stack.template.Holds stack.id p s)
    (hagree : ∀ d ∈ s.dependencies path, stack.resources.Agree others d.resource) :
    s.Every (CannotTell stack.resources others) := by
  obtain ⟨v, hv⟩ := h
  exact Every.imp₂ (fun _ _ hnamed hagree => ⟨hnamed, hagree⟩) s
    (Template.every_names_resource hv)
    ((Snippet.every_target_iff (stack.resources.Agree others) s path).2 hagree)

theorem every_cannotTell_of_part (d : ResourceDefinition) (part : String) {s : Option Snippet}
    (h : ∀ content ∈ s, stack.template.Holds stack.id .ordinary content)
    (hagree : ∀ name ∈ d.referred part s, stack.resources.Agree others name) :
    ∀ content ∈ s, content.Every (CannotTell stack.resources others) := by
  intro content hs
  exact every_cannotTell_of_dependencies s!"{d.name}.{part}" (h content hs) fun dependency hd =>
    hagree _ (ResourceDefinition.mem_referred hs hd)

theorem value_withResources (h : stack.Proper) {s : Snippet}
    (hs : s.Every (CannotTell stack.resources others)) :
    stack.value s = (stack.withResources others).value s := sameValue_withResources h hs [] []

theorem ofSnippet_withResources (h : stack.Proper) {part : Option Snippet}
    (hs : ∀ s ∈ part, s.Every (CannotTell stack.resources others)) :
    Properties.ofSnippet stack part = Properties.ofSnippet (stack.withResources others) part := by
  cases part with
  | none => rfl
  | some s =>
    have hs := hs s rfl
    cases s with
    | scalar s => cases s <;> rfl
    | list items => rfl
    | call c args =>
      simp only [Properties.ofSnippet]
      rw [value_withResources h hs]
    | map fields =>
      have hvalue : ∀ name, (Properties.ofSnippets stack fields).value name =
          (Properties.ofSnippets (stack.withResources others) fields).value name := by
        intro name
        simp only [Properties.ofSnippets]
        cases hget : Fields.get? fields name with
        | none => rfl
        | some s =>
          have hsame := value_withResources h (hs.of_mem (Fields.mem_of_get? hget))
          simp only [hsame]
      exact congrArg (fun value => Except.ok (Properties.mk (Fields.keys fields) value))
        (funext hvalue)

/-- What definitions and outputs require is all that they tell of live resources: with others that
agree on it, the properties, migrated or not, the metadata and the outputs have the same values or
errors, whatever was asked before. -/
theorem noninterference (stack : Stack) (h : stack.Proper) (others : Resources) (name : String)
    (raw : Value) :
    (∀ d names, stack.template.resourceDefinition stack.id name raw = .ok d →
      d.requires = .ok names → (∀ required ∈ names, stack.resources.Agree others required) →
        (∀ migration requests,
          (fun ps => ((PropertyView.mk ps migration).answers requests).run .empty) <$>
              Properties.ofSnippet stack d.properties =
            (fun ps => ((PropertyView.mk ps migration).answers requests).run .empty) <$>
              Properties.ofSnippet (stack.withResources others) d.properties) ∧
        ∀ s, s ∈ d.properties ∨ s ∈ d.metadata →
          stack.SameValue (stack.withResources others) s) ∧
    ∀ o, stack.template.outputDefinition stack.id name raw = .ok o →
      (∀ required ∈ o.requires, stack.resources.Agree others required) →
        stack.SameValue (stack.withResources others) o.value := by
  refine ⟨fun d names hd hnames hagree => ?_, fun o ho hagree => ?_⟩
  · have hparts := Template.holdsParts_of_resourceDefinition hd
    have hproperties := every_cannotTell_of_part d "properties" hparts.properties
      fun name hn => hagree name ((ResourceDefinition.mem_requires hnames).2 (.inr (.inl hn)))
    have hmetadata := every_cannotTell_of_part d "metadata" hparts.metadata
      fun name hn => hagree name ((ResourceDefinition.mem_requires hnames).2 (.inr (.inr hn)))
    refine ⟨fun migration requests => ?_, ?_⟩
    · rw [ofSnippet_withResources h hproperties]
    · rintro s (hs | hs)
      · exact sameValue_withResources h (hproperties s hs)
      · exact sameValue_withResources h (hmetadata s hs)
  · have hholds := Template.holds_of_outputDefinition ho
    refine sameValue_withResources h (every_cannotTell_of_dependencies s!"outputs.{o.name}" hholds
      fun d hd => ?_)
    exact hagree _ (mem_sortedNames.2 (List.mem_map.2 ⟨d, hd, rfl⟩))

theorem noninterference_of_server :
    let raw := .map [("type", .text "Server"), ("depends_on", .text "net"),
      ("properties", .map [("net", .map [("get_resource", .text "net")])])]
    let net : StaticResource := ⟨"net", .text "n", [], true⟩
    let others := StaticResources.toResources
      [("net", net), ("volume", ⟨"volume", .text "v", [], true⟩)]
    ∃ t stack d, Template.ofValue (.map [("heat_template_version", .text "2016-10-14"),
        ("resources", .map [("server", raw)])]) = .ok t ∧
      make ⟨"s"⟩ "s" t [] (StaticResources.toResources [("net", net)]) = .ok stack ∧
      t.resourceDefinition ⟨"s"⟩ "server" raw = .ok d ∧ d.requires = .ok ["net"] ∧
      stack.resources.Agree others "net" ∧
      ∀ s ∈ d.properties, stack.SameValue (stack.withResources others) s := by
  intro raw net others
  have hnames : sortedNames ["net", "net"] = ["net"] := by
    rw [sortedNames, List.mergeSort_of_pairwise (by decide)]
    rfl
  have hagree : (StaticResources.toResources [("net", net)]).Agree others "net" :=
    .some ⟨rfl, rfl, fun _ => rfl⟩
  refine ⟨_, _, _, rfl, rfl, rfl, congrArg Except.ok hnames, hagree, fun s hs => ?_⟩
  refine ((noninterference _ ?_ others "server" raw).1 _ ["net"] ?_ ?_ ?_).2 s (.inl hs)
  · exact rfl
  · exact rfl
  · exact congrArg Except.ok hnames
  · simpa using hagree

end Stack

end Orchestration
