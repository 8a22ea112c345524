import Orchestration.Proofs.Fields
import Orchestration.Template.Parameters

namespace Orchestration

namespace ParameterType

variable {type : ParameterType} {v w : Value}

inductive Has : ParameterType → Value → Prop
  | text (s : String) : Has string (.text s)
  | integer (i : Int64) : Has number (.integer i)
  | decimal (d : Decimal) : Has number (.decimal d)
  | texts (ss : List String) : Has commaDelimitedList (.texts ss)
  | list (items : List Value) : Has json (.list items)
  | map (fields : Fields Value) : Has json (.map fields)
  | bool (b : Bool) : Has boolean (.bool b)

theorem has_of_numberOfText? {s : String} (h : numberOfText? s = some w) : Has number w := by
  rw [numberOfText?, Option.or_eq_some_iff] at h
  obtain h | ⟨-, h⟩ := h
  · obtain ⟨i, -, rfl⟩ := Option.map_eq_some_iff.1 h
    exact .integer i
  · obtain ⟨d, -, rfl⟩ := Option.map_eq_some_iff.1 h
    exact .decimal d

theorem has_itemsOfText (s : String) : Has commaDelimitedList (.list (itemsOfText s)) := by
  rw [itemsOfText]
  split
  · exact .texts []
  · have htexts := Has.texts
      ((Text.pieces [','] s.toList).map fun item => String.ofList (Text.trim item))
    rwa [Value.texts, List.map_map] at htexts

theorem has_of_jsonOfText? {s : String} (h : jsonOfText? s = some w) : Has json w := by
  rw [jsonOfText?] at h
  split at h
  · cases h
    exact .map []
  · obtain ⟨-, h⟩ := Option.filter_eq_some_iff.1 h
    cases w with
    | list items => exact .list items
    | map fields => exact .map fields
    | scalar s => cases h

theorem has_of_booleanOfText? {s : String} (h : booleanOfText? s = some w) : Has boolean w := by
  rw [booleanOfText?] at h
  split at h <;> cases h <;> exact .bool _

theorem exists_texts_of_mapM {items items' : List Value}
    (h : items.mapM (fun v => v.plain?.map Value.text) = some items') :
    ∃ ss : List String, items' = ss.map Value.text := by
  induction items generalizing items' with
  | nil =>
    cases h
    exact ⟨[], rfl⟩
  | cons v items ih =>
    rw [List.mapM_cons] at h
    obtain ⟨w, hw, h⟩ := Option.bind_eq_some_iff.1 h
    obtain ⟨rest, hrest, h⟩ := Option.bind_eq_some_iff.1 h
    obtain ⟨s, -, rfl⟩ := Option.map_eq_some_iff.1 hw
    obtain ⟨ss, rfl⟩ := ih hrest
    cases h
    exact ⟨s :: ss, rfl⟩

theorem has_of_convert? (h : type.convert? v = some w) : type.Has w := by
  cases type with
  | string =>
    cases v with
    | scalar s => cases h; exact .text s.plain
    | _ => cases h
  | number =>
    match v, h with
    | .integer i, h => cases h; exact .integer i
    | .decimal d, h => cases h; exact .decimal d
    | .text _, h => exact has_of_numberOfText? h
    | .null, h | .bool _, h | .list _, h | .map _, h => cases h
  | commaDelimitedList =>
    match v, h with
    | .text s, h => cases h; exact has_itemsOfText s
    | .list _, h =>
      obtain ⟨items, hitems, rfl⟩ := Option.map_eq_some_iff.1 h
      obtain ⟨ss, rfl⟩ := exists_texts_of_mapM hitems
      exact .texts ss
    | .null, h | .bool _, h | .integer _, h | .decimal _, h | .map _, h => cases h
  | json =>
    match v, h with
    | .text _, h => exact has_of_jsonOfText? h
    | .list items, h => cases h; exact .list items
    | .map fields, h => cases h; exact .map fields
    | .null, h | .bool _, h | .integer _, h | .decimal _, h => cases h
  | boolean =>
    match v, h with
    | .bool b, h => cases h; exact .bool b
    | .integer _, h =>
      rw [ParameterType.convert?] at h
      split at h
      · cases h
        exact .bool false
      · split at h <;> cases h
        exact .bool true
    | .text _, h => exact has_of_booleanOfText? h
    | .null, h | .decimal _, h | .list _, h | .map _, h => cases h

theorem Has.convert? (h : type.Has v) : type.convert? v = some v := by
  cases h with
  | texts ss =>
    have hitems : (ss.map Value.text).mapM (fun v => v.plain?.map Value.text) =
        some (ss.map Value.text) := by
      induction ss with
      | nil => rfl
      | cons s ss ih =>
        rw [List.map_cons, List.mapM_cons, ih]
        rfl
    exact congrArg (Option.map Value.list) hitems
  | _ => rfl

theorem convert_eq_ok_iff {name : String} :
    type.convert name v = .ok w ↔ type.convert? v = some w := by
  rw [convert]
  cases type.convert? v with
  | none => exact ⟨nofun, nofun⟩
  | some converted => simp [pure, Except.pure]

theorem has_of_convert {name : String} (h : type.convert name v = .ok w) : type.Has w :=
  has_of_convert? (convert_eq_ok_iff.1 h)

theorem Has.convert (h : type.Has v) (name : String) : type.convert name v = .ok v :=
  convert_eq_ok_iff.2 h.convert?

end ParameterType

namespace Parameters

variable {t : Template} {given : Fields Value} {stackName : String} {stack : StackId}
  {ps : Parameters} {ss : Fields ParameterSchema} {schema : ParameterSchema} {name : String}
  {v w : Value} {settled : Option Value}

def Declares (t : Template) (name : String) (type : ParameterType) (default : Option Value) :
    Prop :=
  ∃ fields written,
    (t.entries .parameters).get? name = some (.map fields) ∧
    Fields.get? fields (if t.version.isHot then "type" else "Type") = some (.text written) ∧
    ParameterType.ofText? t.version.isHot written = some type ∧
    Fields.get? fields (if t.version.isHot then "default" else "Default") = default

def pseudoNames (version : Version) : List String :=
  if version.isHot then ["OS::stack_name", "OS::stack_id", "OS::project_id"]
  else ["AWS::StackName", "AWS::StackId", "AWS::Region"]

def settle (given : Fields Value) (name : String) (schema : ParameterSchema) :
    Result (Option Value) :=
  match given.get? name with
  | some v => some <$> schema.type.convert name v
  | none => pure schema.default

def Converted (type : ParameterType) (name : String) (raw settled : Option Value) : Prop :=
  Option.Rel (fun v w => type.convert name v = .ok w) raw settled

theorem keys_pseudo (version : Version) (stackName : String) (stack : StackId) :
    (pseudo version stackName stack).keys = pseudoNames version := by
  unfold pseudo pseudoNames
  split <;> rfl

theorem nodup_keys_pseudo (version : Version) (stackName : String) (stack : StackId) :
    (pseudo version stackName stack).keys.Nodup := by
  rw [keys_pseudo, pseudoNames]
  split <;> decide

theorem declares_of_ofValue {raw : Value} (hraw : (t.entries .parameters).get? name = some raw)
    (h : ParameterSchema.ofValue t.version name raw = .ok schema) :
    ∃ default, Declares t name schema.type default ∧
      Converted schema.type name default schema.default := by
  unfold ParameterSchema.ofValue at h
  cases raw with
  | map fields =>
    dsimp only at h
    split at h
    case h_1 written hwritten =>
      split at h
      case h_1 type htype =>
        obtain ⟨_, ⟨⟩, h⟩ := Run.exists_of_bind_ok h
        obtain ⟨settled, hsettled, h⟩ := Run.exists_of_bind_ok h
        cases h
        refine ⟨_, ⟨fields, written, hraw, hwritten, htype, rfl⟩, ?_⟩
        generalize Fields.get? fields _ = default at hsettled ⊢
        cases default with
        | none =>
          cases hsettled
          exact .none
        | some v =>
          obtain ⟨w, hw, rfl⟩ := Run.exists_of_map_ok hsettled
          exact .some hw
      case h_2 => cases h
    case h_2 => cases h
  | _ => cases h

theorem keyed_of_schemas (h : schemas t = .ok ss) :
    List.Forall₂ (Fields.Keyed fun name raw schema =>
      ParameterSchema.ofValue t.version name raw = .ok schema) (t.entries .parameters) ss := by
  obtain ⟨fields, hfields, h⟩ := Run.exists_of_bind_ok h
  have hentries : t.entries .parameters = fields := by
    rw [Template.entries, hfields]
    rfl
  rw [hentries]
  refine (Run.mapM_eq_ok_iff.1 h).imp fun e e' he => ?_
  obtain ⟨schema, hschema, he⟩ := Run.exists_of_bind_ok he
  cases he
  exact ⟨rfl, hschema⟩

theorem settle_of_none (h : given.get? name = none) :
    settle given name schema = .ok schema.default := by
  rw [settle, h]
  rfl

theorem settle_of_some (h : given.get? name = some v)
    (hw : schema.type.convert name v = .ok w) : settle given name schema = .ok (some w) := by
  rw [settle, h]
  dsimp only
  rw [hw]
  rfl

theorem default_of_settle (h : settle given name schema = .ok none) : schema.default = none := by
  rw [settle] at h
  split at h
  · obtain ⟨_, -, h⟩ := Run.exists_of_map_ok h
    cases h
  · exact Except.ok.inj h

theorem converted_of_settle {default : Option Value}
    (hdefault : Converted schema.type name default schema.default)
    (h : settle given name schema = .ok settled) :
    Converted schema.type name ((given.get? name).or default) settled := by
  rw [settle] at h
  cases hgiven : given.get? name with
  | none =>
    rw [hgiven] at h
    cases h
    exact hdefault
  | some v =>
    rw [hgiven] at h
    obtain ⟨w, hw, rfl⟩ := Run.exists_of_map_ok h
    exact .some hw

theorem settledEntry_eq_ok_iff {e : String × ParameterSchema} {e' : String × Option Value} :
    (do
      match given.get? e.1 with
      | some v => return (e.1, some (← e.2.type.convert e.1 v))
      | none => return (e.1, e.2.default) : Result (String × Option Value)) = .ok e' ↔
      Fields.Keyed (fun name schema v => settle given name schema = .ok v) e e' := by
  obtain ⟨name, schema⟩ := e
  obtain ⟨name', settled⟩ := e'
  dsimp only [Fields.Keyed, settle]
  cases given.get? name with
  | none => simp [pure, Except.pure]
  | some v =>
    rw [Run.map_eq_ok_iff]
    constructor
    · intro h
      obtain ⟨w, hw, h⟩ := Run.exists_of_bind_ok h
      cases h
      exact ⟨rfl, w, hw, rfl⟩
    · rintro ⟨rfl, w, hw, rfl⟩
      exact Run.ok_bind hw

theorem make_eq_ok_iff : make t given stackName stack = .ok ps ↔
    ∃ ss declared, schemas t = .ok ss ∧ (∀ name ∈ given.keys, name ∈ ss.keys) ∧
      List.Forall₂ (Fields.Keyed fun name schema v => settle given name schema = .ok v) ss
        declared ∧
      ps = Fields.extend declared ((pseudo t.version stackName stack).map fun e =>
        (e.1, some e.2)) := by
  have hknown (ss : Fields ParameterSchema) : given.keys.find? (!ss.contains ·) = none ↔
      ∀ name ∈ given.keys, name ∈ ss.keys := by
    simp [Fields.contains_iff]
  rw [make]
  constructor
  · intro h
    obtain ⟨ss, hss, h⟩ := Run.exists_of_bind_ok h
    split at h
    case h_1 => cases h
    case h_2 hfind =>
      obtain ⟨declared, hdeclared, h⟩ := Run.exists_of_bind_ok h
      cases h
      have hentries := Run.mapM_eq_ok_iff.1 hdeclared
      exact ⟨ss, declared, hss, (hknown ss).1 hfind,
        hentries.imp fun _ _ => settledEntry_eq_ok_iff.1, rfl⟩
  · rintro ⟨ss, declared, hss, hkeys, hdeclared, rfl⟩
    rw [Run.ok_bind hss, (hknown ss).2 hkeys]
    exact Run.ok_bind
      (Run.mapM_eq_ok_iff.2 (hdeclared.imp fun _ _ => settledEntry_eq_ok_iff.2))

theorem get?_extend_pseudo (declared : Parameters) :
    Fields.get? (Fields.extend declared ((pseudo t.version stackName stack).map fun e =>
      (e.1, some e.2))) name =
      (((pseudo t.version stackName stack).get? name).map some).or (Fields.get? declared name) := by
  rw [Fields.get?_extend (by rw [Fields.keys_map]; exact nodup_keys_pseudo ..), Fields.get?_map]

theorem value_eq_ok_iff : ps.value name = .ok v ↔ Fields.get? ps name = some (some v) := by
  rw [value]
  split <;> simp_all [pure, Except.pure]

theorem value_eq_missing_iff :
    ps.value name = .error (.bare (.parameterMissing name)) ↔ Fields.get? ps name = some none := by
  rw [value]
  split <;> simp_all [pure, Except.pure]

section

variable (h : make t given stackName stack = .ok ps)

include h

theorem value_pseudo {e : String × Value} (he : e ∈ pseudo t.version stackName stack) :
    ps.value e.1 = .ok e.2 := by
  obtain ⟨_, declared, -, -, -, rfl⟩ := make_eq_ok_iff.1 h
  rw [value_eq_ok_iff, get?_extend_pseudo, Fields.get?_of_mem (nodup_keys_pseudo ..) he]
  rfl

theorem rel_get?_of_make (hname : name ∉ pseudoNames t.version) (hss : schemas t = .ok ss) :
    Option.Rel (fun schema settled => settle given name schema = .ok settled) (ss.get? name)
      (Fields.get? ps name) := by
  obtain ⟨ss', declared, hss', -, hdeclared, rfl⟩ := make_eq_ok_iff.1 h
  obtain rfl : ss = ss' := Except.ok.inj (hss.symm.trans hss')
  have hnone : (pseudo t.version stackName stack).get? name = none := by
    rwa [Fields.get?_eq_none_iff, keys_pseudo]
  rw [get?_extend_pseudo, hnone]
  exact Fields.rel_get?_of_keyed hdeclared name

theorem exists_of_schema (hname : name ∉ pseudoNames t.version) (hss : schemas t = .ok ss)
    (hschema : ss.get? name = some schema) :
    ∃ settled, Fields.get? ps name = some settled ∧ settle given name schema = .ok settled := by
  have hrel := rel_get?_of_make h hname hss
  rw [hschema] at hrel
  generalize Fields.get? ps name = found at hrel
  cases hrel with
  | some hsettle => exact ⟨_, rfl, hsettle⟩

end

theorem exists_declares (hss : schemas t = .ok ss) (hschema : ss.get? name = some schema) :
    ∃ default, Declares t name schema.type default ∧
      Converted schema.type name default schema.default := by
  have hrel := Fields.rel_get?_of_keyed (keyed_of_schemas hss) name
  rw [hschema] at hrel
  generalize hraw : (t.entries .parameters).get? name = raw at hrel
  cases hrel with
  | some hvalue => exact declares_of_ofValue hraw hvalue

theorem has_of_settle (hss : schemas t = .ok ss) (hschema : ss.get? name = some schema)
    (h : settle given name schema = .ok (some v)) : schema.type.Has v := by
  obtain ⟨default, -, hdefault⟩ := exists_declares hss hschema
  have hconverted := converted_of_settle hdefault h
  generalize (given.get? name).or default = raw at hconverted
  cases hconverted with
  | some hv => exact ParameterType.has_of_convert hv

theorem exists_of_value (h : make t given stackName stack = .ok ps)
    (hname : name ∉ pseudoNames t.version) (hss : schemas t = .ok ss) (hv : ps.value name = .ok v) :
    ∃ schema, ss.get? name = some schema ∧ schema.type.Has v := by
  have hrel := rel_get?_of_make h hname hss
  rw [value_eq_ok_iff.1 hv] at hrel
  generalize hschema : ss.get? name = found at hrel
  cases hrel with
  | some hsettle => exact ⟨_, rfl, has_of_settle hss hschema hsettle⟩

section

variable {given' : Fields Value} (h : make t given stackName stack = .ok ps)
  (hss : schemas t = .ok ss)
  (hpassed : ∀ name v, given'.get? name = some v →
    ps.value name = .ok v ∧ name ∉ pseudoNames t.version)

include h hss hpassed

theorem settle_of_passed (hschema : ss.get? name = some schema) (hv : given'.get? name = some v) :
    settle given' name schema = .ok (some v) := by
  obtain ⟨hvalue, hname⟩ := hpassed name v hv
  obtain ⟨schema', hschema', hhas⟩ := exists_of_value h hname hss hvalue
  obtain rfl : schema = schema' := Option.some.inj (hschema.symm.trans hschema')
  exact settle_of_some hv (hhas.convert name)

theorem exists_of_passed (hkeys : ss.keys.Nodup) (stackName' : String) (stack' : StackId) :
    ∃ ps', make t given' stackName' stack' = .ok ps' := by
  refine ⟨_, make_eq_ok_iff.2 ⟨ss, ss.map fun e => (e.1, (given'.get? e.1).or e.2.default), hss, ?_,
    ?_, rfl⟩⟩
  · intro name hname
    obtain ⟨v, hv⟩ := Option.isSome_iff_exists.1 ((Fields.contains_iff given' name).2 hname)
    obtain ⟨hvalue, hpseudo⟩ := hpassed name v hv
    obtain ⟨schema, hschema, -⟩ := exists_of_value h hpseudo hss hvalue
    exact (Fields.contains_iff ss name).1 (Option.isSome_iff_exists.2 ⟨schema, hschema⟩)
  · rw [List.forall₂_map_right_iff, List.forall₂_same]
    refine fun e he => ⟨rfl, ?_⟩
    cases hgiven : given'.get? e.1 with
    | none => exact settle_of_none hgiven
    | some v => exact settle_of_passed h hss hpassed (Fields.get?_of_mem hkeys he) hgiven

theorem value_of_passed {ps' : Parameters} {stackName' : String} {stack' : StackId}
    (h' : make t given' stackName' stack' = .ok ps') (hschema : ss.get? name = some schema)
    (hname : name ∉ pseudoNames t.version)
    (hall : ∀ v, ps.value name = .ok v → given'.get? name = some v) :
    ps'.value name = ps.value name := by
  obtain ⟨settled, hsettled, hsettle⟩ := exists_of_schema h hname hss hschema
  obtain ⟨settled', hsettled', hsettle'⟩ := exists_of_schema h' hname hss hschema
  have hagain : settle given' name schema = .ok settled := by
    cases settled with
    | some v => exact settle_of_passed h hss hpassed hschema (hall v (value_eq_ok_iff.2 hsettled))
    | none =>
      have hnone : given'.get? name = none := by
        by_contra hsome
        obtain ⟨v, hv⟩ := Option.ne_none_iff_exists'.1 hsome
        have hvalue := value_eq_ok_iff.1 (hpassed name v hv).1
        rw [hsettled] at hvalue
        cases hvalue
      rw [settle_of_none hnone, default_of_settle hsettle]
  obtain rfl : settled' = settled := Except.ok.inj (hsettle'.symm.trans hagain)
  rw [value, value, hsettled, hsettled']

end

/-- Every parameter has a value of its declared type, or none if none is given and there is no
default. Converted to the type again a value stays the same, so another stack that it is given to
has the same value. The values that every stack has are its own. -/
theorem values_typed (h : make t given stackName stack = .ok ps) :
    (∀ name ∈ given.keys, name ∈ (t.entries .parameters).keys) ∧
    (∀ name ∈ (t.entries .parameters).keys, name ∉ pseudoNames t.version →
      ∃ type default, Declares t name type default ∧
        (ps.value name = .error (.bare (.parameterMissing name)) ↔
          given.get? name = none ∧ default = none) ∧
        ∀ raw, (given.get? name).or default = some raw → ∃ v, type.convert name raw = .ok v ∧
          ps.value name = .ok v ∧ type.Has v ∧ type.convert name v = .ok v) ∧
    (∀ e ∈ pseudo t.version stackName stack, ps.value e.1 = .ok e.2) ∧
    ((t.entries .parameters).keys.Nodup → ∀ given' stackName' stack',
      (∀ name v, given'.get? name = some v → ps.value name = .ok v ∧ name ∉ pseudoNames t.version) →
      ∃ ps', make t given' stackName' stack' = .ok ps' ∧
        ∀ name ∈ (t.entries .parameters).keys, name ∉ pseudoNames t.version →
          (∀ v, ps.value name = .ok v → given'.get? name = some v) →
            ps'.value name = ps.value name) := by
  obtain ⟨ss, declared, hss, hgiven, -, -⟩ := make_eq_ok_iff.1 h
  have hkeys : (t.entries .parameters).keys = ss.keys :=
    Fields.keys_eq_of_keyed (keyed_of_schemas hss)
  have hschema {name : String} (hname : name ∈ (t.entries .parameters).keys) :
      ∃ schema, ss.get? name = some schema :=
    Option.isSome_iff_exists.1 ((Fields.contains_iff ss name).2 (hkeys ▸ hname))
  refine ⟨fun name hname => hkeys ▸ hgiven name hname, ?_, fun e => value_pseudo h, ?_⟩
  · intro name hname hpseudo
    obtain ⟨schema, hschema⟩ := hschema hname
    obtain ⟨settled, hsettled, hsettle⟩ := exists_of_schema h hpseudo hss hschema
    obtain ⟨default, hdeclares, hdefault⟩ := exists_declares hss hschema
    have hconverted := converted_of_settle hdefault hsettle
    refine ⟨schema.type, default, hdeclares, ?_, ?_⟩
    · rw [value_eq_missing_iff, hsettled, Option.some_inj, ← Option.or_eq_none_iff]
      generalize (given.get? name).or default = raw at hconverted
      cases hconverted <;> simp
    · intro raw hraw
      rw [hraw] at hconverted
      cases hconverted with
      | some hv =>
        have hhas := ParameterType.has_of_convert hv
        exact ⟨_, hv, value_eq_ok_iff.2 hsettled, hhas, hhas.convert name⟩
  · intro hnodup given' stackName' stack' hpassed
    obtain ⟨ps', h'⟩ := exists_of_passed h hss hpassed (hkeys ▸ hnodup) stackName' stack'
    refine ⟨ps', h', fun name hname hpseudo hall => ?_⟩
    obtain ⟨schema, hschema⟩ := hschema hname
    exact value_of_passed h hss hpassed h' hschema hpseudo hall

theorem values_typed_of_ports :
    ∃ t ps ps',
      Template.ofValue (.map [("heat_template_version", .text "2016-10-14"), ("parameters", .map [
        ("ports", .map [("type", .text "comma_delimited_list")]),
        ("flavor", .map [("type", .text "string"), ("default", .integer 1)]),
        ("key", .map [("type", .text "string")]),
        ("OS::stack_name", .map [("type", .text "string"), ("default", .text "x")])])]) = .ok t ∧
      make t [("ports", .text "80, 443")] "s" ⟨"s"⟩ = .ok ps ∧
      ps.value "ports" = .ok (.texts ["80", "443"]) ∧ ps.value "flavor" = .ok (.text "1") ∧
      ps.value "key" = .error (.bare (.parameterMissing "key")) ∧
      ps.value "OS::stack_name" = .ok (.text "s") ∧
      make t [("ports", .texts ["80", "443"])] "other" ⟨"other"⟩ = .ok ps' ∧
      ps'.value "ports" = .ok (.texts ["80", "443"]) := by
  let t : Template := ⟨.hot .v20161014, [("heat_template_version", .text "2016-10-14"),
    ("parameters", .map [
      ("ports", .map [("type", .text "comma_delimited_list")]),
      ("flavor", .map [("type", .text "string"), ("default", .integer 1)]),
      ("key", .map [("type", .text "string")]),
      ("OS::stack_name", .map [("type", .text "string"), ("default", .text "x")])])], []⟩
  let ps : Parameters := [("ports", some (.texts ["80", "443"])), ("flavor", some (.text "1")),
    ("key", none), ("OS::stack_name", some (.text "s")), ("OS::stack_id", some (.text "s")),
    ("OS::project_id", some (.text ""))]
  have h : make t [("ports", .text "80, 443")] "s" ⟨"s"⟩ = .ok ps := rfl
  have hvalue : ps.value "ports" = .ok (.texts ["80", "443"]) := rfl
  obtain ⟨-, -, hpseudo, hpassed⟩ := values_typed h
  have hgiven (name : String) (v : Value)
      (hv : Fields.get? [("ports", .texts ["80", "443"])] name = some v) :
      ps.value name = .ok v ∧ name ∉ pseudoNames t.version := by
    cases List.mem_singleton.1 (Fields.mem_of_get? hv)
    exact ⟨hvalue, by decide⟩
  obtain ⟨ps', h', hagain⟩ := hpassed (by decide) _ "other" ⟨"other"⟩ hgiven
  have hports : ps'.value "ports" = ps.value "ports" :=
    hagain "ports" (by decide) (by decide) fun v hv =>
      congrArg some (Except.ok.inj (hvalue.symm.trans hv))
  have hname := hpseudo ("OS::stack_name", .text "s") List.mem_cons_self
  exact ⟨t, ps, ps', rfl, h, hvalue, rfl, rfl, hname, h', hports.trans hvalue⟩

end Parameters

end Orchestration
