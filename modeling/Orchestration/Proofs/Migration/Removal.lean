import Orchestration.Proofs.Migration.Reach

namespace Orchestration

/-- Texts that lead where a segment does: a key itself, or a numeral of an index. -/
inductive Segment.SpelledBy : Segment → String → Prop
  | key (name : String) : SpelledBy (.key name) name
  | index {i : Nat} {s : String} : Text.unsigned? s.toList = some i → SpelledBy (.index i) s

def Breadcrumb.nestsLists : Breadcrumb → Bool
  | .index _ :: .index _ :: _ => true
  | _ :: place => nestsLists place
  | [] => false

namespace Value

variable {v w : Value} {items : List Value} {fields : Fields Value} {parent : Breadcrumb}
  {last : Segment} {key : String} {i : Nat}

/-- What a value is apart from the values in it. -/
inductive Outline
  | scalar (s : Scalar)
  | list (length : Nat)
  | map (keys : List String)

def outline : Value → Outline
  | scalar s => .scalar s
  | list items => .list items.length
  | map fields => .map (Fields.keys fields)

inductive Loses : Value → Segment → Value → Prop
  | entry {fields : Fields Value} {key : String} :
      fields.contains key = true → (fields.erase key).contains key = false →
      Loses (.map fields) (.key key) (.map (fields.erase key))
  | item {items : List Value} {i : Nat} :
      i < items.length → Loses (.list items) (.index i) (.list (items.eraseIdx i))

/-- The second value is the first one without what is at a place in it. The maps and lists on the
way keep their keys and their lengths, and what is apart from the way stays as it is. -/
structure TakenOut (v w : Value) (parent : Breadcrumb) (last : Segment) : Prop where
  holder : ∃ h h', v.follow? parent = some h ∧ w.follow? parent = some h' ∧ h.Loses last h'
  above : ∀ place, place <+: parent → place ≠ parent →
    (w.follow? place).map outline = (v.follow? place).map outline
  apart : ∀ place, ¬place <+: parent → ¬parent <+: place → w.follow? place = v.follow? place

theorem Loses.takenOut (h : v.Loses last w) : v.TakenOut w [] last where
  holder := ⟨v, w, follow?_nil v, follow?_nil w, h⟩
  above _ hplace hne := absurd (List.prefix_nil.1 hplace) hne
  apart _ _ hplace := absurd List.nil_prefix hplace

namespace TakenOut

theorem enter {outer outer' : Value} {segment : Segment} (h : v.TakenOut w parent last)
    (hv : outer.follow? [segment] = some v) (hw : outer'.follow? [segment] = some w)
    (houtline : outer'.outline = outer.outline)
    (hother : ∀ other place, other ≠ segment →
      outer'.follow? (other :: place) = outer.follow? (other :: place)) :
    outer.TakenOut outer' (segment :: parent) last := by
  have hin place : outer.follow? (segment :: place) = v.follow? place := by
    rw [← List.singleton_append, follow?_append, hv, Option.bind_some]
  have hin' place : outer'.follow? (segment :: place) = w.follow? place := by
    rw [← List.singleton_append, follow?_append, hw, Option.bind_some]
  refine ⟨?_, fun place hplace hne => ?_, fun place hplace hparent => ?_⟩
  · rw [hin, hin']
    exact h.holder
  · cases place with
    | nil => rw [follow?_nil, follow?_nil, Option.map_some, Option.map_some, houtline]
    | cons first place =>
      obtain ⟨rfl, hrest⟩ := List.cons_prefix_cons.1 hplace
      rw [hin, hin']
      exact h.above place hrest fun heq => hne (by rw [heq])
  · cases place with
    | nil => exact absurd List.nil_prefix hplace
    | cons first place =>
      by_cases hfirst : first = segment
      · subst hfirst
        rw [List.cons_prefix_cons, not_and] at hplace hparent
        rw [hin, hin']
        exact h.apart place (hplace rfl) (hparent rfl)
      · exact hother first place hfirst

theorem field (h : v.TakenOut w parent last) (hv : fields.get? key = some v) :
    (map fields).TakenOut (map (fields.insert key w)) (.key key :: parent) last := by
  have hw : (fields.insert key w).get? key = some w := by rw [Fields.get?_insert, if_pos rfl]
  refine h.enter (follow?_field hv) (follow?_field hw) ?_ fun other place hother => ?_
  · rw [outline, outline, Fields.keys_insert_of_get? hv]
  · cases other with
    | index _ => rfl
    | key other =>
      have hne : key ≠ other := fun heq => hother (heq ▸ rfl)
      rw [follow?, follow?, Fields.get?_insert, if_neg hne]

theorem item (h : v.TakenOut w parent last) (hv : items[i]? = some v) :
    (list items).TakenOut (list (items.set i w)) (.index i :: parent) last := by
  have hw : (items.set i w)[i]? = some w := by
    rw [List.getElem?_set_self (List.getElem?_eq_some_iff.1 hv).1]
  refine h.enter (follow?_item hv) (follow?_item hw) ?_ fun other place hother => ?_
  · rw [outline, outline, List.length_set]
  · cases other with
    | key _ => rfl
    | index j =>
      have hne : i ≠ j := fun heq => hother (heq ▸ rfl)
      rw [follow?, follow?, List.getElem?_set_ne hne]

end TakenOut

end Value

namespace Breadcrumb

variable {place : Breadcrumb} {name : String} {i j : Nat}

theorem nestsLists_key : nestsLists (.key name :: place) = nestsLists place := by
  rw [nestsLists]
  nofun

theorem nestsLists_index_key :
    nestsLists (.index i :: .key name :: place) = nestsLists (.key name :: place) := by
  rw [nestsLists]
  nofun

theorem nestsLists_index_index : nestsLists (.index i :: .index j :: place) = true := rfl

theorem nestsLists_single (segment : Segment) : nestsLists [segment] = false := by
  cases segment <;> rfl

end Breadcrumb

namespace Migration

variable {v w : Value} {path : List String} {s : String} {items : List Value}
  {parent : Breadcrumb} {last : Segment} {data : Fields Value}

theorem at?_text_iff : v.at? (.text s) = some w ↔
    ∃ segment : Segment, segment.SpelledBy s ∧ v.follow? [segment] = some w := by
  constructor
  · intro h
    cases v with
    | scalar _ => cases h
    | map fields => exact ⟨.key s, .key s, (Value.follow?_field h).trans (Value.follow?_nil w)⟩
    | list items =>
      obtain ⟨i, hi, h⟩ := Option.bind_eq_some_iff.1 h
      exact ⟨.index i, .index hi, (Value.follow?_item h).trans (Value.follow?_nil w)⟩
  · rintro ⟨segment, hsegment, h⟩
    cases hsegment with
    | key =>
      cases v with
      | map fields => simpa [Value.follow?, Value.at?] using h
      | _ => cases h
    | index hi =>
      cases v with
      | list items => simpa [Value.follow?, Value.at?, hi] using h
      | _ => cases h

theorem select?_texts_iff : v.select? (path.map .text) = some w ↔
    ∃ place, List.Forall₂ Segment.SpelledBy place path ∧ v.follow? place = some w := by
  induction path generalizing v with
  | nil => simp
  | cons s path ih =>
    have hcons (segment : Segment) (place : Breadcrumb) : v.follow? (segment :: place) =
        (v.follow? [segment]).bind (·.follow? place) := v.follow?_append [segment] place
    rw [select?_text_cons, Option.bind_eq_some_iff]
    constructor
    · rintro ⟨u, hu, hw⟩
      obtain ⟨segment, hsegment, hu⟩ := at?_text_iff.1 hu
      obtain ⟨place, hplace, hw⟩ := ih.1 hw
      exact ⟨segment :: place, .cons hsegment hplace, by rw [hcons, hu]; exact hw⟩
    · rintro ⟨_, hplace, hw⟩
      cases hplace with
      | cons hsegment hplace =>
        rw [hcons, Option.bind_eq_some_iff] at hw
        obtain ⟨u, hu, hw⟩ := hw
        exact ⟨u, at?_text_iff.2 ⟨_, hsegment, hu⟩, ih.2 ⟨_, hplace, hw⟩⟩

theorem lookup_eq_some_iff : lookup data path = some v ↔ ∃ parent last,
    List.Forall₂ Segment.SpelledBy (parent ++ [last]) path ∧
      (Value.map data).follow? (parent ++ [last]) = some v := by
  rw [lookup]
  cases path with
  | nil => simp
  | cons s path =>
    rw [List.isEmpty_cons, if_neg Bool.false_ne_true, select?_texts_iff]
    constructor
    · rintro ⟨place, hplace, hv⟩
      obtain rfl | ⟨parent, last, rfl⟩ := List.eq_nil_or_concat place
      · cases hplace
      · rw [List.concat_eq_append] at hplace hv
        exact ⟨parent, last, hplace, hv⟩
    · rintro ⟨parent, last, hplace, hv⟩
      exact ⟨_, hplace, hv⟩

theorem cut_map {fields : Fields Value} (hne : path ≠ []) :
    cut path (.map fields) = some (.map (remove fields path)) := by
  obtain ⟨s, path, rfl⟩ := List.exists_cons_of_ne_nil hne
  rfl

theorem cut_list (hne : path ≠ []) :
    cut path (.list items) = some (.list (removeItem items path)) := by
  obtain ⟨s, path, rfl⟩ := List.exists_cons_of_ne_nil hne
  rfl

/-! Where nothing is found. -/

theorem removeItem_single {i : Nat} (h : Text.unsigned? s.toList = some i) :
    removeItem items [s] = items.eraseIdx i := by
  by_cases hi : i < items.length
  · have hindex : itemIndex? items s = some i := by simp [itemIndex?, h, hi]
    rw [removeItem, hindex]
  · have hindex : itemIndex? items s = none := by simpa [itemIndex?, h] using hi
    rw [removeItem, hindex, List.eraseIdx_of_length_le (Nat.le_of_not_lt hi)]

theorem modify_cutItem_eq_self {i : Nat} (h : ∀ u, items[i]? = some u → cutItem path u = u) :
    items.modify i (cutItem path) = items := by
  refine List.ext_getElem? fun j => ?_
  rw [List.getElem?_modify]
  split
  · next hj =>
    subst hj
    cases hu : items[i]? with
    | none => rfl
    | some u => exact congrArg some (h u hu)
  · simp

theorem cutItem_of_cut (hne : path ≠ []) (h : cut path v = some v) : cutItem path v = v := by
  obtain ⟨s, path, rfl⟩ := List.exists_cons_of_ne_nil hne
  cases v with
  | map fields => exact Option.some.inj h
  | _ => rfl

theorem cut_of_select?_none (hne : path ≠ []) (h : v.select? (path.map .text) = none) :
    cut path v = some v := by
  induction path generalizing v with
  | nil => exact absurd rfl hne
  | cons s path ih =>
    have hrest : ∀ u, v.at? (.text s) = some u → path ≠ [] ∧ cut path u = some u := by
      intro u hu
      rw [select?_text_cons, hu, Option.bind_some] at h
      have hpath : path ≠ [] := by
        rintro rfl
        cases h
      exact ⟨hpath, ih hpath h⟩
    cases v with
    | scalar _ => rfl
    | map fields =>
      rw [cut_map hne, remove_cons, Fields.alter_eq_self fun u hu => (hrest u hu).2]
    | list items =>
      rw [cut_list hne]
      cases hs : Text.unsigned? s.toList with
      | none => rw [removeItem_of_none items hs]
      | some i =>
        have hitem : (Value.list items).at? (.text s) = items[i]? := by simp [Value.at?, hs]
        rw [hitem] at hrest
        by_cases hpath : path = []
        · have hnone : items[i]? = none :=
            Option.eq_none_iff_forall_ne_some.2 fun u hu => (hrest u hu).1 hpath
          have hlength := List.getElem?_eq_none_iff.1 hnone
          rw [hpath, removeItem_single hs, List.eraseIdx_of_length_le hlength]
        · rw [removeItem_of_some items hs hpath, modify_cutItem_eq_self]
          exact fun u hu => cutItem_of_cut hpath (hrest u hu).2

theorem remove_of_lookup_none (h : lookup data path = none) : remove data path = data := by
  cases path with
  | nil => rw [remove]
  | cons s path =>
    rw [lookup, List.isEmpty_cons, if_neg Bool.false_ne_true] at h
    have hcut := cut_of_select?_none (List.cons_ne_nil s path) h
    exact Value.map.inj (Option.some.inj hcut)

/-! Where something is found. -/

section

variable {fields inner : Fields Value} {key : String} {u u' : Value} {i : Nat}

theorem cut_field (hu : fields.get? key = some u) (hcut : cut path u = some u') :
    cut (key :: path) (.map fields) = some (.map (fields.insert key u')) := by
  rw [cut_map (List.cons_ne_nil key path), remove_cons, Fields.alter_eq_of_some hu hcut]

theorem cut_item_map (hs : Text.unsigned? s.toList = some i) (hne : path ≠ [])
    (hu : items[i]? = some (.map inner)) (hcut : cut path (.map inner) = some u') :
    cut (s :: path) (.list items) = some (.list (items.set i u')) := by
  have hleft : cutItem path (.map inner) = u' := Option.some.inj ((cut_map hne).symm.trans hcut)
  rw [cut_list (List.cons_ne_nil s path), removeItem_of_some items hs hne, List.modify_eq_set, hu,
    Option.getD_some, hleft]

theorem cut_item_list {nested : List Value} (hs : Text.unsigned? s.toList = some i)
    (hne : path ≠ []) (hu : items[i]? = some (.list nested)) :
    cut (s :: path) (.list items) = some (.list items) := by
  rw [cut_list (List.cons_ne_nil s path), removeItem_of_some items hs hne, modify_cutItem_eq_self]
  intro u hu'
  obtain rfl : u = .list nested := Option.some.inj (hu'.symm.trans hu)
  rfl

end

theorem cut_single {segment : Segment} (hs : segment.SpelledBy s)
    (hw : v.follow? [segment] = some w) (htidy : v.Tidy) :
    ∃ v', cut [s] v = some v' ∧ v.Loses segment v' := by
  cases hs with
  | key =>
    cases v with
    | map fields =>
      obtain ⟨u, hu, -⟩ := Option.bind_eq_some_iff.1 hw
      refine ⟨.map (Fields.erase fields s), ?_, .entry (Option.isSome_of_mem hu) ?_⟩
      · rw [cut_map (List.cons_ne_nil s []), remove]
      · rw [Fields.contains, Fields.get?_erase_self htidy.nodup]
        rfl
    | _ => cases hw
  | @index i _ hi =>
    cases v with
    | list items =>
      obtain ⟨u, hu, -⟩ := Option.bind_eq_some_iff.1 hw
      refine ⟨.list (items.eraseIdx i), ?_, .item (List.getElem?_eq_some_iff.1 hu).1⟩
      rw [cut_list (List.cons_ne_nil s []), removeItem_single hi]
    | _ => cases hw

structure TakesAt (path : List String) (v : Value) (parent : Breadcrumb) (last : Segment) : Prop where
  kept : Breadcrumb.nestsLists (parent ++ [last]) = true → cut path v = some v
  taken : Breadcrumb.nestsLists (parent ++ [last]) = false →
    ∃ v', cut path v = some v' ∧ v.TakenOut v' parent last

namespace TakesAt

variable {fields inner : Fields Value} {key : String} {u : Value} {i : Nat}

theorem single (hs : last.SpelledBy s) (hw : v.follow? [last] = some w) (htidy : v.Tidy) :
    TakesAt [s] v [] last := by
  obtain ⟨v', hv', hloses⟩ := cut_single hs hw htidy
  refine ⟨fun h => ?_, fun _ => ⟨v', hv', hloses.takenOut⟩⟩
  rw [List.nil_append, Breadcrumb.nestsLists_single] at h
  cases h

theorem field (h : TakesAt path u parent last) (hu : fields.get? key = some u) :
    TakesAt (key :: path) (.map fields) (.key key :: parent) last := by
  constructor
  all_goals rw [List.cons_append, Breadcrumb.nestsLists_key]
  · intro hnests
    rw [cut_field hu (h.kept hnests), Fields.insert_self hu]
  · intro hnests
    obtain ⟨u', hcut, hout⟩ := h.taken hnests
    exact ⟨_, cut_field hu hcut, hout.field hu⟩

theorem item_map (h : TakesAt path (.map inner) parent last) (hs : Text.unsigned? s.toList = some i)
    (hpath : path ≠ []) (hu : items[i]? = some (.map inner))
    (hw : (Value.map inner).follow? (parent ++ [last]) = some w) :
    TakesAt (s :: path) (.list items) (.index i :: parent) last := by
  obtain ⟨name, rest, hrest⟩ := Value.exists_key_of_follow? (by simp) hw
  have hnests : Breadcrumb.nestsLists (.index i :: (parent ++ [last])) =
      Breadcrumb.nestsLists (parent ++ [last]) := by
    rw [hrest, Breadcrumb.nestsLists_index_key]
  constructor
  all_goals rw [List.cons_append, hnests]
  · intro hnests
    obtain ⟨hi, hitem⟩ := List.getElem?_eq_some_iff.1 hu
    rw [cut_item_map hs hpath hu (h.kept hnests), ← hitem, List.set_getElem_self]
  · intro hnests
    obtain ⟨u', hcut, hout⟩ := h.taken hnests
    exact ⟨_, cut_item_map hs hpath hu hcut, hout.item hu⟩

theorem item_list {nested : List Value} (hs : Text.unsigned? s.toList = some i) (hpath : path ≠ [])
    (hu : items[i]? = some (.list nested))
    (hw : (Value.list nested).follow? (parent ++ [last]) = some w) :
    TakesAt (s :: path) (.list items) (.index i :: parent) last := by
  obtain ⟨j, rest, hrest⟩ := Value.exists_index_of_follow? (by simp) hw
  constructor
  all_goals rw [List.cons_append, hrest, Breadcrumb.nestsLists_index_index]
  · exact fun _ => cut_item_list hs hpath hu
  · nofun

end TakesAt

theorem takesAt_of_follow? (hplace : List.Forall₂ Segment.SpelledBy (parent ++ [last]) path)
    (hw : v.follow? (parent ++ [last]) = some w) (htidy : v.Tidy) : TakesAt path v parent last := by
  induction parent generalizing v path with
  | nil =>
    cases hplace with
    | cons hs hnil =>
      cases hnil
      exact .single hs hw htidy
  | cons segment parent ih =>
    have hne : parent ++ [last] ≠ [] := by simp
    cases hplace with
    | @cons _ s _ path hs hplace =>
      have hpath : path ≠ [] := by
        rintro rfl
        exact hne (List.forall₂_nil_right_iff.1 hplace)
      cases hs with
      | key =>
        cases v with
        | map fields =>
          obtain ⟨u, hu, hw⟩ := Option.bind_eq_some_iff.1 hw
          exact .field (ih hplace hw (htidy.get? hu)) hu
        | _ => cases hw
      | @index i _ hi =>
        cases v with
        | list items =>
          obtain ⟨u, hu, hw⟩ := Option.bind_eq_some_iff.1 hw
          cases u with
          | scalar _ => cases (Value.follow?_scalar_of_ne hne).symm.trans hw
          | list nested => exact .item_list hi hpath hu hw
          | map inner =>
            have hinner := ih hplace hw (htidy.item (List.mem_of_getElem? hu))
            exact .item_map hinner hi hpath hu hw
        | _ => cases hw

/-- Nothing is taken out where a path leads nowhere. What it leads to is found at a place that is
spelled like the path, and is taken out while all else stays, unless the place is in a list that is
an item of a list; then all stays. -/
theorem removal_takes_found (htidy : (Value.map data).Tidy) (path : List String) :
    (lookup data path = none → remove data path = data) ∧
    (∀ v, lookup data path = some v ↔ ∃ parent last,
      List.Forall₂ Segment.SpelledBy (parent ++ [last]) path ∧
        (Value.map data).follow? (parent ++ [last]) = some v) ∧
    ∀ parent last v, List.Forall₂ Segment.SpelledBy (parent ++ [last]) path →
      (Value.map data).follow? (parent ++ [last]) = some v →
      (Breadcrumb.nestsLists (parent ++ [last]) = false →
        (Value.map data).TakenOut (.map (remove data path)) parent last) ∧
      (Breadcrumb.nestsLists (parent ++ [last]) = true → remove data path = data) := by
  refine ⟨remove_of_lookup_none, fun v => lookup_eq_some_iff, fun parent last v hplace hv => ?_⟩
  have hpath : path ≠ [] := by
    rintro rfl
    simpa using List.forall₂_nil_right_iff.1 hplace
  obtain ⟨hkept, htaken⟩ := takesAt_of_follow? hplace hv htidy
  rw [cut_map hpath] at hkept htaken
  refine ⟨fun h => ?_, fun h => Value.map.inj (Option.some.inj (hkept h))⟩
  obtain ⟨v', hcut, h⟩ := htaken h
  cases hcut
  exact h

theorem removal_takes_found_port :
    let data : Fields Value := [("nets", .list [.map [("port", .text "p"), ("ip", .text "i")]]),
      ("name", .text "n")]
    lookup data ["nets", "0", "port"] = some (.text "p") ∧
      (Value.map data).TakenOut (.map (remove data ["nets", "0", "port"]))
        [.key "nets", .index 0] (.key "port") ∧
      remove data ["nets", "1", "port"] = data := by
  intro data
  have htidy : (Value.map data).Tidy := rfl
  obtain ⟨-, hfound, htaken⟩ := removal_takes_found htidy ["nets", "0", "port"]
  have hplace : List.Forall₂ Segment.SpelledBy ([.key "nets", .index 0] ++ [.key "port"])
      ["nets", "0", "port"] := .cons (.key _) (.cons (.index rfl) (.cons (.key _) .nil))
  have hvalue : (Value.map data).follow? ([.key "nets", .index 0] ++ [.key "port"]) =
      some (.text "p") := rfl
  exact ⟨(hfound _).2 ⟨_, _, hplace, hvalue⟩, (htaken _ _ _ hplace hvalue).1 rfl,
    (removal_takes_found htidy ["nets", "1", "port"]).1 rfl⟩

/-- An item of a list that is an item of a list is found but not taken out. -/
theorem removal_misses_nested_list :
    let data : Fields Value := [("nets", .list [.list [.text "old"]])]
    lookup data ["nets", "0", "0"] = some (.text "old") ∧
      remove data ["nets", "0", "0"] = data ∧
      ¬(Value.map data).TakenOut (.map (remove data ["nets", "0", "0"]))
        [.key "nets", .index 0] (.index 0) := by
  intro data
  have hkept : remove data ["nets", "0", "0"] = data := rfl
  refine ⟨rfl, hkept, fun h => ?_⟩
  have hempty : ∀ v, Value.Loses (.list [.text "old"]) (.index 0) v → v = .list [] := by
    rintro _ ⟨⟩
    rfl
  rw [hkept] at h
  obtain ⟨holder, holder', hfound, hleft, hloses⟩ := h.holder
  cases hfound
  cases hleft
  cases hempty _ hloses

end Migration

end Orchestration
