import Orchestration.Proofs.Definitions.Contents
import Orchestration.Proofs.Snippets.Reading

/-!
Frozen definitions that are read again. What parameters, attributes, mappings and files contribute is
written without marks, so a map among it that looks like a call is read as one. Main statement: the
parts in which no map looks like a call stay what they are, and in every other part there is a call.
-/

namespace Orchestration

def Version.Reading.isData : Version.Reading → Bool
  | .data => true
  | _ => false

def Version.readsData (version : Version) (inConditions : Bool) : List (String × Value) → Bool
  | [(name, _)] => (version.reading inConditions name).isData
  | _ => true

namespace Value

mutual

/-- Whether no map anywhere looks like a call. -/
def isData (version : Version) (inConditions : Bool) : Value → Bool
  | .scalar _ => true
  | .list items => isDataItems version inConditions items
  | .map fields => version.readsData inConditions fields && isDataFields version inConditions fields

def isDataItems (version : Version) (inConditions : Bool) : List Value → Bool
  | [] => true
  | v :: rest => v.isData version inConditions && isDataItems version inConditions rest

def isDataFields (version : Version) (inConditions : Bool) : List (String × Value) → Bool
  | [] => true
  | (_, v) :: rest => v.isData version inConditions && isDataFields version inConditions rest

end

end Value

namespace Version

variable {version : Version} {c : Bool}

theorem Reading.isData_iff {r : Reading} : r.isData = true ↔ r = .data := by
  cases r <;> simp [isData]

theorem readsData_iff {fields : List (String × Value)} :
    version.readsData c fields = true ↔
      ∀ name v, fields = [(name, v)] → version.reading c name = .data := by
  constructor
  · rintro h name v rfl
    exact Reading.isData_iff.1 h
  · intro h
    unfold readsData
    split
    · next name v => exact Reading.isData_iff.2 (h name v rfl)
    · rfl

end Version

section

variable {t : Template} {stack : StackId} {p : Parser}

theorem Value.isData_eq_false {name : String} {v : Value}
    (h : t.version.reading p.inConditions name ≠ .data) :
    (Value.map [(name, v)]).isData t.version p.inConditions = false := by
  have hread : (t.version.reading p.inConditions name).isData = false := by
    rw [← Bool.not_eq_true, Version.Reading.isData_iff]
    exact h
  rw [Value.isData, Version.readsData, hread, Bool.false_and]

mutual

theorem Reads.isPlain_eq {p : Parser} {v : Value} {s : Snippet} :
    Reads t stack p v s → s.isPlain = v.isData t.version p.inConditions
  | .scalar => rfl
  | .list h => h.isPlain_eq
  | .map hdata h => by
    rw [Snippet.isPlain, Value.isData, Version.readsData_iff.2 hdata, Bool.true_and, h.isPlain_eq]
  | .function hreading _ _ => (Value.isData_eq_false (by rw [hreading]; nofun)).symm
  | .negation hreading _ _ => (Value.isData_eq_false (by rw [hreading]; nofun)).symm
  | .negationOfItem hreading _ _ => (Value.isData_eq_false (by rw [hreading]; nofun)).symm
  | .unavailable hreading _ => (Value.isData_eq_false (by rw [hreading]; nofun)).symm

theorem ReadsItems.isPlain_eq {p : Parser} {vs : List Value} {ss : List Snippet} :
    ReadsItems t stack p vs ss →
      Snippet.isPlainItems ss = Value.isDataItems t.version p.inConditions vs
  | .nil => rfl
  | .cons h hs => by
    rw [Snippet.isPlainItems, Value.isDataItems, h.isPlain_eq, hs.isPlain_eq]

theorem ReadsFields.isPlain_eq {p : Parser} {vs : List (String × Value)}
    {ss : List (String × Snippet)} :
    ReadsFields t stack p vs ss →
      Snippet.isPlainFields ss = Value.isDataFields t.version p.inConditions vs
  | .nil => rfl
  | .cons h hs => by
    rw [Snippet.isPlainFields, Value.isDataFields, h.isPlain_eq, hs.isPlain_eq]

end

mutual

theorem reads_of_isData : ∀ v : Value, v.isData t.version p.inConditions = true →
    Reads t stack p v (.ofValue v)
  | .scalar _, _ => .scalar
  | .list vs, h => .list (readsItems_of_isData vs h)
  | .map fields, h => by
    obtain ⟨hread, hfields⟩ := Bool.and_eq_true_iff.1 h
    exact .map (Version.readsData_iff.1 hread) (readsFields_of_isData fields hfields)

theorem readsItems_of_isData : ∀ vs : List Value,
    Value.isDataItems t.version p.inConditions vs = true →
      ReadsItems t stack p vs (Snippet.ofItems vs)
  | [], _ => .nil
  | v :: rest, h => by
    obtain ⟨hv, hrest⟩ := Bool.and_eq_true_iff.1 h
    exact .cons (reads_of_isData v hv) (readsItems_of_isData rest hrest)

theorem readsFields_of_isData : ∀ fields : List (String × Value),
    Value.isDataFields t.version p.inConditions fields = true →
      ReadsFields t stack p fields (Snippet.ofFields fields)
  | [], _ => .nil
  | (_, v) :: rest, h => by
    obtain ⟨hv, hrest⟩ := Bool.and_eq_true_iff.1 h
    exact .cons (reads_of_isData v hv) (readsFields_of_isData rest hrest)

end

end

namespace Snippet

mutual

theorem ofValue_canonical : ∀ s : Snippet, s.isPlain = true → ofValue s.canonical = s
  | .scalar _, _ => rfl
  | .list items, h => congrArg list (ofItems_canonicalItems items h)
  | .map fields, h => congrArg map (ofFields_canonicalFields fields h)

theorem ofItems_canonicalItems : ∀ items : List Snippet, isPlainItems items = true →
    ofItems (canonicalItems items) = items
  | [], _ => rfl
  | s :: rest, h => by
    obtain ⟨hs, hrest⟩ := Bool.and_eq_true_iff.1 h
    rw [canonicalItems, ofItems, ofValue_canonical s hs, ofItems_canonicalItems rest hrest]

theorem ofFields_canonicalFields : ∀ fields : List (String × Snippet),
    isPlainFields fields = true → ofFields (canonicalFields fields) = fields
  | [], _ => rfl
  | (_, s) :: rest, h => by
    obtain ⟨hs, hrest⟩ := Bool.and_eq_true_iff.1 h
    rw [canonicalFields, ofFields, ofValue_canonical s hs, ofFields_canonicalFields rest hrest]

end

end Snippet

namespace ResourceDefinition

variable {target : Stack} {f g : ResourceDefinition}

theorem reparsePart_of_reparse (h : f.reparse target = .ok g) {part : Section}
    (hpart : part ≠ .condition) : reparsePart target (f.content part) = .ok (g.content part) := by
  obtain ⟨properties, hproperties, h⟩ := Run.exists_of_bind_ok h
  obtain ⟨metadata, hmetadata, h⟩ := Run.exists_of_bind_ok h
  obtain ⟨updatePolicy, hpolicy, h⟩ := Run.exists_of_bind_ok h
  obtain ⟨externalId, hexternal, h⟩ := Run.exists_of_bind_ok h
  cases h
  cases part with
  | properties => exact hproperties
  | metadata => exact hmetadata
  | updatePolicy => exact hpolicy
  | externalId => exact hexternal
  | condition => exact absurd rfl hpart

theorem exists_reparse
    (h : ∀ part, part ≠ .condition → ∃ s, reparsePart target (f.content part) = .ok s) :
    ∃ g, f.reparse target = .ok g := by
  obtain ⟨properties, hproperties⟩ := h .properties nofun
  obtain ⟨metadata, hmetadata⟩ := h .metadata nofun
  obtain ⟨updatePolicy, hpolicy⟩ := h .updatePolicy nofun
  obtain ⟨externalId, hexternal⟩ := h .externalId nofun
  exact ⟨_, (Run.ok_bind hproperties).trans <| (Run.ok_bind hmetadata).trans <|
    (Run.ok_bind hpolicy).trans (Run.ok_bind hexternal)⟩

def isData (version : Version) (d : ResourceDefinition) (part : Section) : Bool :=
  (d.content part).all (·.canonical.isData version false)

theorem Plain.reparsePart_eq (hf : f.Plain) {part : Section}
    (hdata : f.isData target.template.version part = true) :
    reparsePart target (f.content part) = .ok (f.content part) := by
  have hplain := hf.content part
  unfold isData at hdata
  unfold reparsePart
  cases hs : f.content part with
  | none => rfl
  | some s =>
    rw [hs] at hdata
    have hread : Reads target.template target.id .ordinary s.canonical (.ofValue s.canonical) :=
      reads_of_isData s.canonical hdata
    rw [Option.mapM_some, Template.snippet_eq_ok_iff.2 hread,
      Snippet.ofValue_canonical s (hplain s hs)]
    rfl

theorem isData_iff_of_reparsePart {part : Section} {s : Option Snippet}
    (h : reparsePart target (f.content part) = .ok s) :
    f.isData target.template.version part = true ↔ ∀ content ∈ s, content.isPlain = true := by
  unfold reparsePart at h
  unfold isData
  cases hf : f.content part with
  | none =>
    rw [hf] at h
    cases h
    simp
  | some written =>
    rw [hf] at h
    obtain ⟨content, hread, rfl⟩ := Run.exists_of_map_ok h
    have heq := (Template.snippet_eq_ok_iff.1 hread).isPlain_eq
    simp [heq, Parser.ordinary]

/-- A frozen definition can be read again, for any stack, if no map in it looks like a call there.
Each part in which no map does is read as it is, and the value that it had before it was frozen is
still its value. In each other part there is a call again. -/
theorem reparse_of_freeze (d : ResourceDefinition) (hd : d.Settled) (stack : Stack)
    (earlier : List Request) (f : ResourceDefinition)
    (h : ((d.freeze stack {}).run (stack.memoAfter earlier)).1 = .ok f) (target : Stack) :
    ((∀ part, part ≠ .condition → f.isData target.template.version part = true) →
      ∃ g, f.reparse target = .ok g) ∧
    ∀ g, f.reparse target = .ok g → ∀ part, part ≠ .condition →
      (f.isData target.template.version part = true ↔
        ∀ s ∈ g.content part, s.isPlain = true) ∧
      (f.isData target.template.version part = true →
        g.content part = f.content part ∧ ∃ v, d.contentValue stack part = .ok v ∧
          f.contentValue stack part = .ok v ∧ g.contentValue target part = .ok v) := by
  have hplain : f.Plain := hd.plain_of_freeze (Prod.ext h rfl)
  refine ⟨fun hdata => exists_reparse fun part hpart => ⟨_, hplain.reparsePart_eq (hdata part hpart)⟩,
    fun g hg part hpart => ?_⟩
  have hreread := reparsePart_of_reparse hg hpart
  refine ⟨isData_iff_of_reparsePart hreread, fun hdata => ?_⟩
  have hsame : g.content part = f.content part :=
    Except.ok.inj (hreread.symm.trans (hplain.reparsePart_eq hdata))
  obtain ⟨hf, hvalue⟩ := contentValue_of_freeze hd h stack part
  refine ⟨hsame, _, hvalue, hf.trans hvalue, ?_⟩
  rw [contentValue, hsame]
  exact hplain.contentValue target part

/-- What a parameter has under the name of a function and another key stays data. -/
theorem reparse_of_settings :
    let settings : Value := .map [("get_param", .text "size"), ("sizes", .list [.text "small"])]
    let raw : Value := .map [("type", .text "T"),
      ("properties", .map [("a", .map [("get_param", .text "p")])])]
    ∃ t stack d f g, Template.ofValue (.map [("heat_template_version", .text "2016-10-14"),
        ("parameters", .map [("p", .map [("type", .text "json"), ("default", settings)])])]) =
          .ok t ∧
      Stack.make ⟨"s"⟩ "s" t [] (StaticResources.toResources []) = .ok stack ∧
      stack.template.resourceDefinition stack.id "r" raw = .ok d ∧
      ((d.freeze stack {}).run (stack.memoAfter [])).1 = .ok f ∧
      (∀ part, part ≠ .condition → f.isData stack.template.version part = true) ∧
      f.reparse stack = .ok g ∧ g.content .properties = f.content .properties ∧
      g.contentValue stack .properties = .ok (some (.map [("a", settings)])) := by
  intro settings raw
  have hstays (stack : Stack) (d f g : ResourceDefinition) (v : Value)
      (hd : stack.template.resourceDefinition stack.id "r" raw = .ok d)
      (hf : ((d.freeze stack {}).run (stack.memoAfter [])).1 = .ok f)
      (hdata : f.isData stack.template.version .properties = true) (hg : f.reparse stack = .ok g)
      (hv : f.contentValue stack .properties = .ok (some v)) :
      g.content .properties = f.content .properties ∧
        g.contentValue stack .properties = .ok (some v) := by
    have h := (reparse_of_freeze d (Begins.read hd).settled stack [] f hf stack).2 g hg .properties nofun
    obtain ⟨hsame, _, -, hf, hg⟩ := h.2 hdata
    exact ⟨hsame, hg.trans (hf.symm.trans hv)⟩
  refine ⟨_, _, _, _, _, rfl, rfl, rfl, rfl, fun part _ => ?_, rfl, ?_⟩
  · cases part <;> rfl
  · exact hstays _ _ _ _ _ rfl rfl rfl rfl rfl

/-- What a parameter has under the name of a function only is read as a call of it. -/
theorem reparse_of_call :
    ∃ t stack d f g, Template.ofValue (.map [("heat_template_version", .text "2016-10-14"),
        ("parameters", .map [
          ("p", .map [("type", .text "json"), ("default", .map [("get_param", .text "q")])]),
          ("q", .map [("type", .text "string"), ("default", .text "secret")])])]) = .ok t ∧
      Stack.make ⟨"s"⟩ "s" t [] (StaticResources.toResources []) = .ok stack ∧
      t.resourceDefinition ⟨"s"⟩ "r" (.map [("type", .text "T"),
        ("properties", .map [("a", .map [("get_param", .text "p")])])]) = .ok d ∧
      ((d.freeze stack {}).run (stack.memoAfter [])).1 = .ok f ∧ f.reparse stack = .ok g ∧
      f.contentValue stack .properties =
        .ok (some (.map [("a", .map [("get_param", .text "q")])])) ∧
      g.contentValue stack .properties = .ok (some (.map [("a", .text "secret")])) :=
  ⟨_, _, _, _, _, rfl, rfl, rfl, rfl, rfl, rfl, rfl⟩

end ResourceDefinition

end Orchestration
