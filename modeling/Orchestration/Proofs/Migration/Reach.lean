import Orchestration.Proofs.Migration.Tidy

namespace Orchestration

namespace Fields

variable {α : Type} {m : Fields α} {key : String} {v : α}

theorem insert_self (h : m.get? key = some v) : m.insert key v = m := by
  rw [← alter_eq_of_some (f := some) h rfl]
  exact alter_eq_self fun _ _ => rfl

theorem keys_insert_of_get? {v' : α} (h : m.get? key = some v) :
    (m.insert key v').keys = m.keys := by
  rw [keys_insert, if_pos ((contains_iff m key).1 (by simp [contains, h]))]

end Fields

namespace Value

variable {v v' : Value} {items items' : List Value} {fields holder : Fields Value} {key : String}
  {way : List String}

theorem reaches_map_cons_iff : Reaches (.map fields) (key :: way) holder ↔
    ∃ v, fields.get? key = some v ∧ v.Reaches way holder :=
  ⟨fun | .field hv h => ⟨_, hv, h⟩, fun ⟨_, hv, h⟩ => .field hv h⟩

theorem Reaches.tidy (h : v.Reaches way holder) (hv : v.Tidy) : (map holder).Tidy := by
  induction h with
  | here => exact hv
  | field hget _ ih => exact ih (hv.get? hget)
  | item hmem _ ih => exact ih (hv.item hmem)

section

variable (R : Fields Value → Fields Value → Prop)

mutual

/-- A value after each of the maps that a way leads to was changed. Everything else is as it was,
where it was. -/
inductive Revised : List String → Value → Value → Prop
  | here {fields fields' : Fields Value} :
    R fields fields' → Revised [] (.map fields) (.map fields')
  | field {fields : Fields Value} {key : String} {way : List String} {v v' : Value} :
    fields.get? key = some v → Revised way v v' →
    Revised (key :: way) (.map fields) (.map (fields.insert key v'))
  | missing {fields : Fields Value} {key : String} {way : List String} :
    fields.get? key = none → Revised (key :: way) (.map fields) (.map fields)
  | list {items items' : List Value} {way : List String} :
    RevisedItems way items items' → Revised way (.list items) (.list items')
  | scalar {s : Scalar} {way : List String} : Revised way (.scalar s) (.scalar s)

inductive RevisedItems : List String → List Value → List Value → Prop
  | nil {way : List String} : RevisedItems way [] []
  | map {fields fields' : Fields Value} {way : List String} {items items' : List Value} :
    Revised way (.map fields) (.map fields') → RevisedItems way items items' →
    RevisedItems way (.map fields :: items) (.map fields' :: items')
  | other {v : Value} {way : List String} {items items' : List Value} :
    v.map? = none → RevisedItems way items items' → RevisedItems way (v :: items) (v :: items')

end

end

section

variable {R R' : Fields Value → Fields Value → Prop}

theorem Revised.isNull_eq (h : Revised R way v v') : v'.isNull = v.isNull := by cases h <;> rfl

mutual

theorem Revised.imp : ∀ {way v v'}, Revised R way v v' →
    (∀ holder holder', v.Reaches way holder → R holder holder' → R' holder holder') →
      Revised R' way v v'
  | _, _, _, .here h, himp => .here (himp _ _ .here h)
  | _, _, _, .field hget h, himp =>
    .field hget (h.imp fun _ _ hreach => himp _ _ (.field hget hreach))
  | _, _, _, .missing hget, _ => .missing hget
  | _, _, _, .list h, himp => .list (h.imp fun _ hmem _ _ hreach => himp _ _ (.item hmem hreach))
  | _, _, _, .scalar, _ => .scalar

theorem RevisedItems.imp : ∀ {way items items'}, RevisedItems R way items items' →
    (∀ fields, .map fields ∈ items → ∀ holder holder', (map fields).Reaches way holder →
      R holder holder' → R' holder holder') → RevisedItems R' way items items'
  | _, _, _, .nil, _ => .nil
  | _, _, _, .map h hitems, himp => .map (h.imp (himp _ List.mem_cons_self))
    (hitems.imp fun _ hmem => himp _ (List.mem_cons_of_mem _ hmem))
  | _, _, _, .other hv hitems, himp => .other hv
    (hitems.imp fun _ hmem => himp _ (List.mem_cons_of_mem _ hmem))

end

mutual

theorem Revised.exists_changed : ∀ {way v v'}, Revised R way v v' →
    ∀ {holder}, v.Reaches way holder → ∃ holder', R holder holder'
  | _, _, _, .here h, _, .here => ⟨_, h⟩
  | _, _, _, .field hget h, _, .field hget' hreach => by
    cases hget.symm.trans hget'
    exact h.exists_changed hreach
  | _, _, _, .missing hget, _, .field hget' _ => nomatch hget.symm.trans hget'
  | _, _, _, .list h, _, .item hmem hreach => h.exists_changed hmem hreach

theorem RevisedItems.exists_changed : ∀ {way items items'}, RevisedItems R way items items' →
    ∀ {fields holder}, .map fields ∈ items → (map fields).Reaches way holder →
      ∃ holder', R holder holder'
  | _, _, _, .map h hitems, _, _, hmem, hreach => by
    obtain heq | hmem := List.mem_cons.1 hmem
    · cases heq
      exact h.exists_changed hreach
    · exact hitems.exists_changed hmem hreach
  | _, _, _, .other hv hitems, _, _, hmem, hreach => by
    obtain rfl | hmem := List.mem_cons.1 hmem
    · cases hv
    · exact hitems.exists_changed hmem hreach

end

mutual

theorem Revised.exists_original : ∀ {way v v'}, Revised R way v v' →
    ∀ {holder'}, v'.Reaches way holder' → ∃ holder, v.Reaches way holder ∧ R holder holder'
  | _, _, _, .here h, _, .here => ⟨_, .here, h⟩
  | _, _, _, .field hget h, _, .field hget' hreach => by
    rw [Fields.get?_insert, if_pos rfl] at hget'
    cases hget'
    obtain ⟨holder, hreach, hr⟩ := h.exists_original hreach
    exact ⟨holder, .field hget hreach, hr⟩
  | _, _, _, .missing hget, _, .field hget' _ => nomatch hget.symm.trans hget'
  | _, _, _, .list h, _, .item hmem hreach => by
    obtain ⟨fields, holder, hmem, hreach, hr⟩ := h.exists_original hmem hreach
    exact ⟨holder, .item hmem hreach, hr⟩

theorem RevisedItems.exists_original : ∀ {way items items'}, RevisedItems R way items items' →
    ∀ {fields' holder'}, .map fields' ∈ items' → (map fields').Reaches way holder' →
      ∃ fields holder, .map fields ∈ items ∧ (map fields).Reaches way holder ∧ R holder holder'
  | _, _, _, .map h hitems, _, _, hmem, hreach => by
    obtain heq | hmem := List.mem_cons.1 hmem
    · cases heq
      obtain ⟨holder, hreach, hr⟩ := h.exists_original hreach
      exact ⟨_, holder, List.mem_cons_self, hreach, hr⟩
    · obtain ⟨fields, holder, hmem, hreach, hr⟩ := hitems.exists_original hmem hreach
      exact ⟨fields, holder, List.mem_cons_of_mem _ hmem, hreach, hr⟩
  | _, _, _, .other hv hitems, _, _, hmem, hreach => by
    obtain rfl | hmem := List.mem_cons.1 hmem
    · cases hv
    · obtain ⟨fields, holder, hmem, hreach, hr⟩ := hitems.exists_original hmem hreach
      exact ⟨fields, holder, List.mem_cons_of_mem _ hmem, hreach, hr⟩

end

end

end Value

namespace Migration

variable {change : Fields Value → Result (Fields Value)} {way : List String}
  {data changed : Fields Value}

theorem revisedItems_of_mapM {R : Fields Value → Fields Value → Prop} {items items' : List Value}
    (hedit : ∀ data changed, edit change way data = .ok changed →
      Value.Revised R way (.map data) (.map changed))
    (h : items.mapM (editItem (edit change way)) = .ok items') :
    Value.RevisedItems R way items items' := by
  have hitems := Run.mapM_eq_ok_iff.1 h
  clear h
  induction hitems with
  | nil => exact .nil
  | cons hitem _ ih =>
    obtain ⟨fields, fields', rfl, rfl, hfields⟩ | ⟨hv, rfl⟩ := editItem_ok hitem
    · exact .map (hedit _ _ hfields) ih
    · exact .other hv ih

theorem edit_revised (h : edit change way data = .ok changed) :
    Value.Revised (fun holder holder' => change holder = .ok holder') way (.map data)
      (.map changed) := by
  induction way generalizing data changed with
  | nil => exact .here h
  | cons key way ih =>
    obtain ⟨fields, fields', hget, hedit, rfl⟩ | ⟨items, items', hget, hmap, rfl⟩ | ⟨hget, hsame⟩ :=
      edit_cons_ok h
    · exact .field hget (ih hedit)
    · exact .field hget (.list (revisedItems_of_mapM (fun _ _ => ih) hmap))
    · rw [hsame]
      cases hv : data.get? key with
      | none => exact .missing hv
      | some v =>
        obtain ⟨s, rfl⟩ : ∃ s, v = .scalar s := by
          cases v with
          | scalar s => exact ⟨s, rfl⟩
          | list items => cases (hget _ hv).2
          | map fields => cases (hget _ hv).1
        have hfield : Value.Revised (fun holder holder' => change holder = .ok holder') (key :: way)
            (.map data) (.map (data.insert key (.scalar s))) := .field hv .scalar
        rwa [Fields.insert_self hv] at hfield

end Migration

end Orchestration
