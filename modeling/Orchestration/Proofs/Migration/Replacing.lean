import Orchestration.Proofs.Migration.Clients
import Orchestration.Proofs.Migration.Reach

namespace Orchestration

namespace Fields

variable {α : Type}

theorem keys_erase (m : Fields α) (key : String) : (m.erase key).keys = m.keys.erase key := by
  induction m with
  | nil => rfl
  | cons e rest ih =>
    by_cases hkey : e.1 = key
    · simp [erase, keys, hkey]
    · rw [erase, if_neg hkey]
      simpa [keys, hkey] using ih

end Fields

theorem Value.eq_null_of_isNull {v : Value} (h : v.isNull) : v = .null := by
  unfold isNull at h
  split at h
  · rfl
  · cases h

namespace Migration

variable {name field : String} {pick : Option (List String)} {holder holder' : Fields Value}

def sibling? (name : String) (pick : Option (List String)) (holder : Fields Value) : Option Value :=
  ((holder.get? name).map (Source.picked pick)).filter (!·.isNull)

def Clashes (name : String) (pick : Option (List String)) (field : String)
    (holder : Fields Value) : Prop :=
  (sibling? name pick holder).isSome ∧ ((holder.get? field).filter (!·.isNull)).isSome

/-- A map after a sibling was moved to a field. A field that was not there is the last one. -/
structure Moved (name field : String) (v : Value) (holder holder' : Fields Value) : Prop where
  written : holder'.get? field = some v
  vacated : holder'.get? name = none
  others : ∀ other, other ≠ field → other ≠ name → holder'.get? other = holder.get? other
  keys : holder'.keys =
    (if field ∈ holder.keys then holder.keys else holder.keys ++ [field]).erase name

def MovedIfAny (name : String) (pick : Option (List String)) (field : String)
    (holder holder' : Fields Value) : Prop :=
  match sibling? name pick holder with
  | none => holder' = holder
  | some v => Moved name field v holder holder'

theorem picked_null (pick : Option (List String)) : Source.picked pick .null = .null := by
  obtain _ | _ | ⟨segment, path⟩ := pick <;> rfl

theorem ne_of_sibling? {v : Value} (hv : sibling? name pick holder = some v)
    (hfree : (holder.get? field).filter (!·.isNull) = none) : name ≠ field := by
  rintro rfl
  obtain ⟨hv, hnull⟩ := Option.filter_eq_some_iff.1 hv
  obtain ⟨w, hw, rfl⟩ := Option.map_eq_some_iff.1 hv
  have hw' : w.isNull := by simpa using Option.filter_eq_none_iff.1 hfree w hw
  rw [Value.eq_null_of_isNull hw', picked_null] at hnull
  cases hnull

namespace Rule

variable {r : Rule} {data : Fields Value}

theorem replaceIn_sibling_error_iff {e : Error} :
    r.replaceIn (.sibling name pick) data holder = .error e ↔
      Clashes name pick r.field holder ∧ e = .bare (.propertyConflict [r.target, name]) := by
  have hvalue : (Source.sibling name pick).value? data holder = sibling? name pick holder := rfl
  unfold replaceIn Clashes
  rw [hvalue]
  cases sibling? name pick holder with
  | none => exact ⟨nofun, nofun⟩
  | some v =>
    cases (holder.get? r.field).filter (!·.isNull) with
    | none => exact ⟨nofun, nofun⟩
    | some old => exact ⟨by rintro ⟨⟩; exact ⟨⟨rfl, rfl⟩, rfl⟩, by rintro ⟨-, rfl⟩; rfl⟩

theorem movedIfAny_of_replaceIn (hkeys : holder.keys.Nodup)
    (h : r.replaceIn (.sibling name pick) data holder = .ok holder') :
    MovedIfAny name pick r.field holder holder' := by
  unfold MovedIfAny
  obtain ⟨hv, rfl⟩ | ⟨v, hv, hfree, rfl⟩ := replaceIn_ok h
  · change sibling? name pick holder' = none at hv
    rw [hv]
  · change sibling? name pick holder = some v at hv
    have hne := ne_of_sibling? hv (hfree rfl)
    rw [hv]
    constructor
    · rw [Source.leave, Fields.get?_erase_of_ne _ hne, Fields.get?_insert, if_pos rfl]
    · exact Fields.get?_erase_self (Fields.nodup_keys_insert hkeys r.field v) name
    · intro other hfield hname
      rw [Source.leave, Fields.get?_erase_of_ne _ hname.symm, Fields.get?_insert,
        if_neg hfield.symm]
    · rw [Source.leave, Fields.keys_erase, Fields.keys_insert]

structure MovesInside (r : Rule) (name : String) (pick : Option (List String)) (key : String)
    (way : List String) : Prop where
  action : r.action = .replace (.sibling name pick)
  way : r.way = key :: way

namespace MovesInside

variable {key : String} {way : List String} (h : r.MovesInside name pick key way)

include h

theorem length_path : r.path.length ≠ 1 := by
  intro hlength
  have hway := way_of_path_length hlength
  rw [h.way] at hway
  cases hway

theorem property_eq : r.property = key := (r.property_of_way_cons h.way).symm

theorem input?_eq_none : r.input? = none := by simp [input?, h.action, h.length_path]

theorem nestedSource?_eq_none : r.nestedSource? = none := by simp [nestedSource?, h.action]

theorem movedProperty?_eq_none : r.movedProperty? = none := by
  simp [movedProperty?, h.action, h.length_path]

theorem takenPath?_eq_none : r.takenPath? = none := by
  simp [takenPath?, h.action, Source.path?, h.way]

theorem apply_eq (clientResolve : Bool) (data : Fields Value) : r.apply clientResolve data =
    liftM (edit (r.replaceIn (.sibling name pick) data) (key :: way) data) := by
  rw [apply, h.action, ← h.way]
  exact bind_pure _

end MovesInside

end Rule

section

variable {m : Migration} {p : Properties} {r : Rule} {key : String} {way : List String} {v : Value}
  {data changed : Fields Value} {e : Error} (hrules : m.rules = [r])
  (h : r.MovesInside name pick key way)

theorem exists_clash_of_edit_error
    (he : edit (r.replaceIn (.sibling name pick) data) (key :: way) [(key, v)] = .error e) :
    (∃ holder, v.Reaches way holder ∧ Clashes name pick r.field holder) ∧
      e = .bare (.propertyConflict [r.target, name]) := by
  obtain ⟨holder, hreach, hholder⟩ := edit_error he
  obtain ⟨w, hw, hreach⟩ := Value.reaches_map_cons_iff.1 hreach
  rw [Fields.get?, if_pos rfl] at hw
  cases hw
  obtain ⟨hclash, rfl⟩ := Rule.replaceIn_sibling_error_iff.1 hholder
  exact ⟨⟨holder, hreach, hclash⟩, rfl⟩

theorem revised_of_edit (hv : v.Tidy)
    (he : edit (r.replaceIn (.sibling name pick) data) (key :: way) [(key, v)] = .ok changed) :
    (∀ holder, v.Reaches way holder → ¬Clashes name pick r.field holder) ∧
      ∃ v', changed.get? key = some v' ∧
        Value.Revised (MovedIfAny name pick r.field) way v v' := by
  have hrevised := edit_revised he
  generalize hfields : Value.map changed = w at hrevised
  cases hrevised with
  | missing hget => simp [Fields.get?] at hget
  | @field _ _ _ w v' hget hrevised =>
    rw [Fields.get?, if_pos rfl] at hget
    cases hget
    cases hfields
    refine ⟨fun holder hreach hclash => ?_, v', ?_,
      hrevised.imp fun holder holder' hreach hok => ?_⟩
    · -- the edit went through this map, which cannot be changed
      obtain ⟨holder', hok⟩ := hrevised.exists_changed hreach
      rw [Rule.replaceIn_sibling_error_iff.2 ⟨hclash, rfl⟩] at hok
      cases hok
    · rw [Fields.get?_insert, if_pos rfl]
    · exact Rule.movedIfAny_of_replaceIn (hreach.tidy hv).nodup hok

include hrules h

theorem rulesFor_of_movesInside : m.rulesFor key = [r] := by
  simp [rulesFor, hrules, h.property_eq]

theorem movedFrom_of_movesInside (other : String) : m.movedFrom other = [] := by
  simp [movedFrom, hrules, h.nestedSource?_eq_none]

theorem untangled_of_movesInside : m.Untangled where
  apart := by simp [hrules, h.takenPath?_eq_none]
  acyclic key hc := by
    obtain ⟨other, hother, -⟩ := Relation.TransGen.head'_iff.1 hc
    rw [Moves, movedFrom_of_movesInside hrules h] at hother
    cases hother

theorem fst_carryOut_of_movesInside (value : String → Result (Option Value)) :
    Prod.fst <$> m.carryOut value key =
      ((fun v => v.elim [] fun v => [(key, v)]) <$> value key) >>= fun data =>
        edit (r.replaceIn (.sibling name pick) data) (key :: way) data := by
  rw [fst_carryOut, inputs, rulesFor_of_movesInside hrules h,
    List.filterMap_cons_none h.input?_eq_none, List.filterMap_nil, gather_singleton]
  congr 1
  funext data
  rw [List.foldlM_cons, h.apply_eq]
  exact congrArg (fun x : Applying (Fields Value) => (x.run []).1) (bind_pure _)

theorem outcome_of_movesInside : (m.outcome p key).value = (m.ruled p.value key).value := by
  have htaken : m.takenFrom (m.outcome p) key = [] := by
    simp [takenFrom, movedFrom_of_movesInside hrules h]
  rw [outcome_eq (untangled_of_movesInside hrules h).acyclic, settle,
    movedFrom_of_movesInside hrules h, htaken, cutAll_nil]
  rfl

theorem read_of_movesInside (earlier : List PropertyView.Request) :
    (((PropertyView.mk p (some m)).read key).run
      (((PropertyView.mk p (some m)).answers earlier).run .empty).2).1 =
        (·.filter (!·.isNull)) <$> (m.ruled p.value key).value := by
  have hm : ∀ m' ∈ (PropertyView.mk p (some m)).migration, m'.Untangled := by
    rintro _ ⟨⟩
    exact untangled_of_movesInside hrules h
  obtain ⟨after, hread, -⟩ :=
    PropertyView.determines_read hm key _ (PropertyView.settled_answers hm earlier)
  have hmasks : m.masks key = false := by simp [masks, hrules, h.movedProperty?_eq_none]
  have haffects : m.affects key = true := by simp [affects, hrules, h.property_eq]
  rw [hread, ← outcome_of_movesInside hrules h]
  simp [PropertyView.outcome, hmasks, haffects]

variable {value : String → Result (Option Value)}

theorem value_ruled_of_value_error (he : value key = .error e) :
    (m.ruled value key).value = .error e := by
  refine value_ruled_of_error ?_ fun _ _ => he
  rw [fst_carryOut_of_movesInside hrules h, he]
  rfl

theorem value_ruled_of_value_none (hv : value key = .ok none) :
    (m.ruled value key).value = .ok none := by
  have hcarry : Prod.fst <$> m.carryOut value key = .ok [] := by
    rw [fst_carryOut_of_movesInside hrules h, hv]
    rfl
  exact value_ruled_of_ok hcarry

theorem value_ruled_of_value_some (hv : value key = .ok (some v)) (htidy : v.Tidy) :
    (∃ holder, v.Reaches way holder ∧ Clashes name pick r.field holder) ∧
        (m.ruled value key).value = .error (.bare (.propertyConflict [r.target, name])) ∨
      (∀ holder, v.Reaches way holder → ¬Clashes name pick r.field holder) ∧
        ∃ v', (m.ruled value key).value = .ok (some v') ∧
          Value.Revised (MovedIfAny name pick r.field) way v v' := by
  have hcarry : Prod.fst <$> m.carryOut value key =
      edit (r.replaceIn (.sibling name pick) [(key, v)]) (key :: way) [(key, v)] := by
    rw [fst_carryOut_of_movesInside hrules h, hv]
    rfl
  cases hedit : edit (r.replaceIn (.sibling name pick) [(key, v)]) (key :: way) [(key, v)] with
  | error e =>
    obtain ⟨hclash, rfl⟩ := exists_clash_of_edit_error hedit
    exact .inl ⟨hclash, value_ruled_of_error (hcarry.trans hedit) nofun⟩
  | ok changed =>
    obtain ⟨hfree, v', hget, hrevised⟩ := revised_of_edit htidy hedit
    exact .inr ⟨hfree, v', hget ▸ value_ruled_of_ok (hcarry.trans hedit), hrevised⟩

end

theorem exists_rule_of_single {d : Declaration} {m : Migration} {clientResolve : Bool}
    (hm : ofDeclarations [d] clientResolve = .ok m) : ∃ r, m.rules = [r] ∧ d.check = .ok r := by
  obtain ⟨_, hrules, rfl⟩ := ofDeclarations_eq_ok_iff.1 hm
  obtain ⟨r, _, hcheck, hrest, rfl⟩ := List.forall₂_cons_left_iff.1 hrules
  cases hrest
  exact ⟨r, List.mergeSort_singleton r, hcheck⟩

theorem movesInside_of_check {d : Declaration} {r : Rule} {key : String} {way : List String}
    (hcheck : d.check = .ok r) (hkind : d.kind = .replace) (hname : d.siblingName = some name)
    (hpath : canonical d.path = key :: (way ++ [field])) :
    r.MovesInside name d.pick key way ∧ r.field = field ∧
      r.target = pathText (canonical d.path) := by
  obtain ⟨hlength, hrpath, hsaid⟩ := Declaration.check_eq_ok_iff.1 hcheck
  have hsource : .sibling name d.pick ∈ d.sources :=
    Declaration.mem_sources_iff.2 (.inr (.inl ⟨name, hname, rfl⟩))
  have hway := r.way_append_field
  rw [hrpath, hpath, ← List.cons_append] at hway
  obtain ⟨hway, hfield⟩ := List.append_inj' hway rfl
  refine ⟨⟨?_, hway⟩, List.singleton_inj.1 hfield, by rw [Rule.target, hrpath]⟩
  generalize r.action = a at hsaid
  cases hsaid with
  | replace _ hhead _ =>
    obtain ⟨source, hsources⟩ := List.length_eq_one_iff.1
      (Nat.le_antisymm hlength (List.length_pos_of_mem hsource))
    rw [hsources] at hhead hsource
    cases hhead
    rw [List.mem_singleton.1 hsource]
  | add hk _ _ => cases hk.symm.trans hkind
  | resolve hk _ _ _ _ _ => cases hk.symm.trans hkind
  | delete hk _ _ => cases hk.symm.trans hkind

section

variable {stack : Stack} {s : Option Snippet} {p : Properties} {m : Migration} {d : Declaration}
  {clientResolve : Bool} {key : String} {way : List String}

/-- A rule on its own that moves siblings fails exactly if one would take the place of another value
in a map that its way leads to. Otherwise each of them is moved, and everything else is as it is
written. -/
theorem replace_exact (hp : Properties.ofSnippet stack s = .ok p)
    (hm : ofDeclarations [d] clientResolve = .ok m) (hkind : d.kind = .replace)
    (hname : d.siblingName = some name) (hpath : canonical d.path = key :: (way ++ [field]))
    (htidy : ∀ v, p.value key = .ok (some v) → v.Tidy) (earlier : List PropertyView.Request) :
    let read := (((PropertyView.mk p (some m)).read key).run
      (((PropertyView.mk p (some m)).answers earlier).run .empty).2).1
    (∀ e, p.value key = .error e → read = .error e) ∧
      (p.value key = .ok none → read = .ok none) ∧
      ∀ v, p.value key = .ok (some v) →
        (read = .error (.bare (.propertyConflict [pathText (canonical d.path), name])) ↔
          ∃ holder, v.Reaches way holder ∧ Clashes name d.pick field holder) ∧
        ((¬∃ holder, v.Reaches way holder ∧ Clashes name d.pick field holder) →
          ∃ v', read = .ok (some v') ∧
            Value.Revised (MovedIfAny name d.pick field) way v v') := by
  intro read
  obtain ⟨r, hrules, hcheck⟩ := exists_rule_of_single hm
  obtain ⟨hmoves, rfl, htarget⟩ := movesInside_of_check hcheck hkind hname hpath
  have hread : read = (·.filter (!·.isNull)) <$> (m.ruled p.value key).value :=
    read_of_movesInside hrules hmoves earlier
  refine ⟨fun e he => ?_, fun hv => ?_, fun v hv => ?_⟩
  · rw [hread, value_ruled_of_value_error hrules hmoves he]
    rfl
  · rw [hread, value_ruled_of_value_none hrules hmoves hv]
    rfl
  · obtain ⟨hclash, hruled⟩ | ⟨hfree, v', hruled, hrevised⟩ :=
      value_ruled_of_value_some hrules hmoves hv (htidy v hv)
    · have hfails :
          read = .error (.bare (.propertyConflict [pathText (canonical d.path), name])) := by
        rw [hread, hruled, htarget]
        rfl
      exact ⟨⟨fun _ => hclash, fun _ => hfails⟩, fun hnot => absurd hclash hnot⟩
    · have hnull : v.isNull = false := by
        have hfilter := Properties.filter_value hp key
        rw [hv] at hfilter
        simpa using (Option.filter_eq_some_iff.1 (Except.ok.inj hfilter)).2
      have hok : read = .ok (some v') := by
        rw [hread, hruled]
        change Except.ok (Option.filter _ (some v')) = _
        rw [Option.filter_some, hrevised.isNull_eq, hnull]
        rfl
      refine ⟨⟨fun hfails => ?_, ?_⟩, fun _ => ⟨v', hok, hrevised⟩⟩
      · cases hok.symm.trans hfails
      · rintro ⟨holder, hreach, hclash⟩
        exact absurd hclash (hfree holder hreach)

end

theorem replace_exact_of_networks :
    let v : Value := .list [.map [("subnet", .map [("port", .text "p")]), ("name", .text "a")],
      .map [("port", .text "q")], .text "default"]
    let v' : Value := .list [.map [("name", .text "a"), ("port", .text "p")],
      .map [("port", .text "q")], .text "default"]
    let d : Declaration := { kind := .replace, path := ["networks", "port"],
                             siblingName := some "subnet", pick := some ["port"] }
    ∃ t stack s p m,
      Template.ofValue (.map [("heat_template_version", .text "2016-10-14")]) = .ok t ∧
      Stack.make ⟨"s"⟩ "s" t [] (StaticResources.toResources []) = .ok stack ∧
      Properties.ofSnippet stack s = .ok p ∧ p.value "networks" = .ok (some v) ∧ v.Tidy ∧
      ofDeclarations [d] true = .ok m ∧ canonical d.path = "networks" :: ([] ++ ["port"]) ∧
      (((PropertyView.mk p (some m)).read "networks").run
        (((PropertyView.mk p (some m)).answers [.all]).run .empty).2).1 = .ok (some v') ∧
      (¬∃ holder, v.Reaches [] holder ∧ Clashes "subnet" d.pick "port" holder) ∧
      Value.Revised (MovedIfAny "subnet" d.pick "port") [] v v' := by
  intro v v' d
  let p : Properties := .ofValues [("networks", v)]
  let m : Migration :=
    ⟨[⟨["networks", "port"], .replace (.sibling "subnet" (some ["port"])), by decide⟩], true⟩
  have hp (stack : Stack) : Properties.ofSnippet stack (some (.map [("networks", .list
      [.map [("subnet", .map [("port", .text "p")]), ("name", .text "a")],
        .map [("port", .text "q")], .text "default"])])) = .ok p :=
    congrArg Except.ok (Properties.ofSnippets_eq_ofValues (.cons ⟨rfl, rfl⟩ .nil))
  have hm : ofDeclarations [d] true = .ok m :=
    congrArg Except.ok (ofRules_of_pairwise (by decide) true)
  have hpath : canonical d.path = "networks" :: ([] ++ ["port"]) := rfl
  have hv : p.value "networks" = .ok (some v) := rfl
  have htidy : v.Tidy := rfl
  have hread : (((PropertyView.mk p (some m)).read "networks").run
      (((PropertyView.mk p (some m)).answers [.all]).run .empty).2).1 = .ok (some v') := by
    with_unfolding_all rfl
  obtain ⟨t, stack, ht, hs⟩ : ∃ t stack,
    Template.ofValue (.map [("heat_template_version", .text "2016-10-14")]) = .ok t ∧
      Stack.make ⟨"s"⟩ "s" t [] (StaticResources.toResources []) = .ok stack := ⟨_, _, rfl, rfl⟩
  obtain ⟨-, -, hsome⟩ := replace_exact (hp stack) hm rfl rfl hpath
    (fun w hw => Option.some.inj (Except.ok.inj (hv.symm.trans hw)) ▸ htidy) [.all]
  obtain ⟨hfails, hmoved⟩ := hsome v hv
  have hfree : ¬∃ holder, v.Reaches [] holder ∧ Clashes "subnet" d.pick "port" holder :=
    fun hclash => nomatch hread.symm.trans (hfails.2 hclash)
  obtain ⟨w, hw, hrevised⟩ := hmoved hfree
  cases hread.symm.trans hw
  exact ⟨t, stack, _, p, m, ht, hs, hp stack, hv, htidy, hm, hpath, hread, hfree, hrevised⟩

end Migration

end Orchestration
