import Orchestration.Proofs.Contracts
import Orchestration.Proofs.Migration.Clients
import Orchestration.Proofs.Migration.Taken
import Orchestration.Proofs.Values.Places

namespace Orchestration

namespace Fields

variable {α : Type} {m : Fields α} {key : String} {e : String × α}

theorem mem_insert {v : α} (h : e ∈ m.insert key v) : e = (key, v) ∨ e ∈ m := by
  induction m with
  | nil => exact .inl (List.mem_singleton.1 h)
  | cons first rest ih => grind [insert]

theorem mem_alter {f : α → Option α} (h : e ∈ m.alter key f) :
    e ∈ m ∨ ∃ v, (e.1, v) ∈ m ∧ f v = some e.2 := by
  induction m with
  | nil => cases h
  | cons first rest ih => grind [alter]

theorem mem_erase (h : e ∈ m.erase key) : e ∈ m := by
  rw [erase_eq_alter] at h
  obtain h | ⟨v, -, hv⟩ := mem_alter h
  · exact h
  · cases hv

end Fields

namespace Value

variable {v w : Value} {items : List Value} {fields : Fields Value} {key : String}

namespace Tidy

theorem insert (h : (map fields).Tidy) (hv : v.Tidy) : (map (fields.insert key v)).Tidy := by
  refine tidy_map_iff.2 ⟨Fields.nodup_keys_insert h.nodup key v, fun e he => ?_⟩
  obtain rfl | he := Fields.mem_insert he
  · exact hv
  · exact (tidy_map_iff.1 h).2 e he

theorem erase (h : (map fields).Tidy) : (map (fields.erase key)).Tidy :=
  tidy_map_iff.2 ⟨h.nodup.sublist (fields.keys_erase_sublist key),
    fun e he => (tidy_map_iff.1 h).2 e (Fields.mem_erase he)⟩

theorem alter {f : Value → Option Value} (h : (map fields).Tidy)
    (hf : ∀ v w, v.Tidy → f v = some w → w.Tidy) : (map (fields.alter key f)).Tidy := by
  refine tidy_map_iff.2 ⟨h.nodup.sublist (fields.keys_alter_sublist), fun e he => ?_⟩
  obtain he | ⟨v, hv, hf'⟩ := Fields.mem_alter he
  · exact (tidy_map_iff.1 h).2 e he
  · exact hf v e.2 ((tidy_map_iff.1 h).2 (e.1, v) hv) hf'

theorem at? {component : Value} (h : v.Tidy) (hw : v.at? component = some w) : w.Tidy := by
  unfold Value.at? at hw
  split at hw
  · exact h.get? hw
  · split at hw
    · exact h.item (List.mem_of_getElem? hw)
    · cases hw
  · obtain ⟨i, -, hi⟩ := Option.bind_eq_some_iff.1 hw
    exact h.item (List.mem_of_getElem? hi)
  · cases hw

theorem select? {path : List Value} (h : v.Tidy) (hw : v.select? path = some w) : w.Tidy := by
  induction path generalizing v with
  | nil => exact Option.some.inj hw ▸ h
  | cons component path ih =>
    obtain ⟨mid, hmid, hw⟩ := Option.bind_eq_some_iff.1 hw
    exact ih (h.at? hmid) hw

end Tidy

end Value

namespace Migration

variable {path : List String} {data holder : Fields Value} {v w : Value}

theorem tidy_removals (path : List String) :
    (∀ data, (Value.map data).Tidy → (Value.map (remove data path)).Tidy) ∧
      ∀ items, (Value.list items).Tidy → (Value.list (removeItem items path)).Tidy := by
  induction path with
  | nil =>
    refine ⟨fun data h => ?_, fun items h => ?_⟩
    · simpa only [remove] using h
    · simpa only [removeItem] using h
  | cons segment path ih =>
    obtain ⟨hfields, hitems⟩ := ih
    refine ⟨fun data h => ?_, fun items h => ?_⟩
    · rw [remove_cons]
      refine h.alter fun v w hv hw => ?_
      unfold cut at hw
      split at hw
      · cases hw
      · cases hw
        exact hfields _ hv
      · cases hw
        exact hitems _ hv
      · cases hw
        exact hv
    · rw [removeItem]
      split
      · exact h
      · next i _ =>
        refine Value.tidy_list_iff.2 fun v hv => ?_
        split at hv
        · exact h.item (List.mem_of_mem_eraseIdx hv)
        · next hitem =>
          obtain hv | rfl := List.mem_or_eq_of_mem_set hv
          · exact h.item hv
          · exact hfields _ (h.item (List.mem_of_getElem? hitem))
        · exact h.item hv

theorem tidy_remove (h : (Value.map data).Tidy) (path : List String) :
    (Value.map (remove data path)).Tidy := (tidy_removals path).1 data h

theorem tidy_lookup (h : (Value.map data).Tidy) (hv : lookup data path = some v) : v.Tidy := by
  unfold lookup at hv
  split at hv
  · cases hv
  · exact h.select? hv

namespace Source

def Tidy : Source → Prop
  | given v => v.Tidy
  | _ => True

theorem tidy_picked (h : v.Tidy) (pick : Option (List String)) : (picked pick v).Tidy := by
  cases pick with
  | none => exact h
  | some path =>
    have hpart {v : Value} (h : v.Tidy) : ((v.select? (path.map .text)).getD .null).Tidy := by
      cases hv : v.select? (path.map .text) with
      | none => exact Value.tidy_scalar _
      | some w => exact h.select? hv
    cases v with
    | list items =>
      refine Value.tidy_list_iff.2 fun w hw => ?_
      obtain ⟨v, hv, rfl⟩ := List.mem_map.1 hw
      exact hpart (h.item hv)
    | _ => exact hpart h

theorem tidy_value? {source : Source} (hs : source.Tidy) (hd : (Value.map data).Tidy)
    (hh : (Value.map holder).Tidy) (hv : source.value? data holder = some v) : v.Tidy := by
  have hfound := (Option.filter_eq_some_iff.1 hv).1
  cases source with
  | given w => exact Option.some.inj hfound ▸ hs
  | sibling name pick =>
    obtain ⟨w, hw, rfl⟩ := Option.map_eq_some_iff.1 hfound
    exact tidy_picked (hh.get? hw) pick
  | top path pick =>
    obtain ⟨w, hw, rfl⟩ := Option.map_eq_some_iff.1 hfound
    exact tidy_picked (tidy_lookup hd hw) pick

end Source

def Spared (e : Error) : Prop := ∀ name, e ≠ .bare (.parameterMissing name)

/-- What an action brings in from elsewhere has maps with different keys, and clients do not fail
for want of a parameter. -/
def Action.Tidy : Action → Prop
  | .add source | .replace source => source.Tidy
  | .resolve l => ∀ v, Result.Meets Spared Value.Tidy (l.client.find l.finder l.entity v)
  | .delete => True

theorem edit_meets {change : Fields Value → Applying (Fields Value)}
    (hchange : ∀ holder, (Value.map holder).Tidy → Run.Meets (fun _ => True) Spared
      (fun fields => (Value.map fields).Tidy) (change holder)) (way : List String)
    (hd : (Value.map data).Tidy) : Run.Meets (fun _ => True) Spared
      (fun fields => (Value.map fields).Tidy) (edit change way data) := by
  induction way generalizing data with
  | nil => exact hchange data hd
  | cons key way ih =>
    rw [edit]
    split
    · next fields hfields =>
      refine (ih (hd.get? hfields)).bind fun fields' hfields' => .pure (hd.insert hfields')
    · next items hitems =>
      refine (Run.Meets.mapM fun v hv => ?_).bind fun items' hitems' =>
        .pure (hd.insert (Value.tidy_list_iff.2 hitems'))
      have hv := (hd.get? hitems).item hv
      cases v with
      | map fields => exact .map (ih hv)
      | _ => exact .pure hv
    · exact .pure hd

namespace Rule

variable {r : Rule}

theorem addTo_meets {source : Source} (hs : source.Tidy) (hd : (Value.map data).Tidy)
    (hh : (Value.map holder).Tidy) : Result.Meets Spared
      (fun fields => (Value.map fields).Tidy) (r.addTo source data holder) := by
  unfold addTo
  cases hv : source.value? data holder with
  | none => exact .ok hh
  | some v =>
    have hv := Source.tidy_value? hs hd hh hv
    have hadded : ∀ w ∈ v.list?.getD [v], w.Tidy := by
      cases v with
      | list items => exact fun w hw => hv.item hw
      | _ => simpa [Value.list?] using hv
    have hinsert {items : List Value} (hitems : ∀ w ∈ items, w.Tidy) :
        (Value.map ((holder.erase r.field).insert r.field
          (.list (items ++ v.list?.getD [v])))).Tidy := by
      refine hh.erase.insert (Value.tidy_list_iff.2 fun w hw => ?_)
      obtain hw | hw := List.mem_append.1 hw
      · exact hitems w hw
      · exact hadded w hw
    dsimp only
    split
    · exact .ok (hinsert nofun)
    · exact .ok (hinsert nofun)
    · next items hitems => exact .ok (hinsert fun w hw => (hh.get? hitems).item hw)
    · exact .error nofun

theorem replaceIn_meets {source : Source} (hs : source.Tidy) (hd : (Value.map data).Tidy)
    (hh : (Value.map holder).Tidy) : Result.Meets Spared
      (fun fields => (Value.map fields).Tidy) (r.replaceIn source data holder) := by
  cases hchanged : r.replaceIn source data holder with
  | error e =>
    obtain ⟨texts, rfl⟩ := replaceIn_error hchanged
    exact .error nofun
  | ok changed =>
    obtain ⟨-, rfl⟩ | ⟨v, hv, -, rfl⟩ := replaceIn_ok hchanged
    · exact .ok hh
    · have hwritten : (Value.map (holder.insert r.field v)).Tidy :=
        hh.insert (Source.tidy_value? hs hd hh hv)
      cases source with
      | sibling name pick => exact .ok hwritten.erase
      | _ => exact .ok hwritten

theorem tidy_vacate {source : Source} {changed : Fields Value} (h : (Value.map changed).Tidy) :
    (Value.map (r.vacate source data changed)).Tidy := by
  unfold vacate
  split
  · dsimp only
    split
    · exact tidy_remove h _
    · exact h
  · exact h

theorem ask_meets {l : Lookup}
    (hl : ∀ v, Result.Meets Spared Value.Tidy (l.client.find l.finder l.entity v)) (v : Value) :
    Run.Meets (fun _ => True) Spared Value.Tidy (l.ask v) := fun _ _ => ⟨hl v, trivial⟩

theorem resolveIn_meets {l : Lookup}
    (hl : ∀ v, Result.Meets Spared Value.Tidy (l.client.find l.finder l.entity v))
    (hh : (Value.map holder).Tidy) : Run.Meets (fun _ => True) Spared
      (fun fields => (Value.map fields).Tidy) (r.resolveIn l holder) := by
  unfold resolveIn
  split
  · exact .pure hh
  · exact .pure hh
  · refine (Run.Meets.mapM fun v _ => ask_meets hl v).bind fun items hitems => .pure ?_
    exact hh.insert (Value.tidy_list_iff.2 hitems)
  · exact (ask_meets hl _).bind fun v hv => .pure (hh.insert hv)

theorem apply_meets (hr : r.action.Tidy) (clientResolve : Bool) (hd : (Value.map data).Tidy) :
    Run.Meets (fun _ => True) Spared (fun fields => (Value.map fields).Tidy)
      (r.apply clientResolve data) := by
  unfold apply
  cases ha : r.action with
  | add source =>
    rw [ha] at hr
    dsimp only
    rw [← edit_liftM]
    exact edit_meets (fun holder hh => .lift (addTo_meets hr hd hh)) r.way hd
  | replace source =>
    rw [ha] at hr
    dsimp only
    rw [← edit_liftM]
    exact (edit_meets (fun holder hh => .lift (replaceIn_meets hr hd hh)) r.way hd).bind
      fun changed hchanged => .pure (tidy_vacate hchanged)
  | resolve l =>
    rw [ha] at hr
    dsimp only
    split
    · exact edit_meets (fun holder hh => resolveIn_meets hr hh) r.way hd
    · exact .pure hd
  | delete => exact edit_meets (fun holder hh => .pure hh.erase) r.way hd

end Rule

end Migration

end Orchestration
