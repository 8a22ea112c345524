import Orchestration.Migration.Apply
import Orchestration.Proofs.Migration.Apart

namespace Orchestration.Migration

variable {root key : String} {rest : List String} {data : Fields Value}

theorem remove_insert (h : root ≠ key) (data : Fields Value) (v : Value) :
    remove (data.insert key v) (root :: rest) = (remove data (root :: rest)).insert key v := by
  rw [remove_cons, remove_cons, Fields.alter_insert data v h]

theorem remove_erase (h : root ≠ key) (data : Fields Value) :
    remove (data.erase key) (root :: rest) = (remove data (root :: rest)).erase key := by
  simp only [remove_cons, Fields.erase_eq_alter]
  exact Fields.alter_comm data h.symm

theorem get?_remove_of_ne (h : root ≠ key) (data : Fields Value) :
    (remove data (root :: rest)).get? key = data.get? key := by
  rw [remove_cons, Fields.get?_alter_of_ne data h]

theorem edit_remove {m : Type → Type} [Monad m] [LawfulMonad m] {way : List String}
    (change : Fields Value → m (Fields Value)) (h : root ≠ key) (data : Fields Value) :
    edit change (key :: way) (remove data (root :: rest)) =
      (remove · (root :: rest)) <$> edit change (key :: way) data := by
  simp only [edit, get?_remove_of_ne h]
  cases data.get? key with
  | none => simp
  | some v => cases v <;> simp [remove_insert h]

theorem ne_of_apart_single (h : apart (root :: rest) [key]) : root ≠ key := by
  rintro rfl
  exact absurd rfl (ne_nil_of_apart (apart_of_apart_cons h)).2

theorem liftM_map_result {α β : Type} (f : α → β) (x : Result α) :
    (liftM (f <$> x) : Applying β) = f <$> (liftM x : Applying α) := by
  cases x <;> rfl

namespace Source

/-- The path from the top to a source. A field next to one that is not at the top has none. -/
def path? (way : List String) : Source → Option (List String)
  | given _ => none
  | sibling name _ => if way = [] then some [name] else none
  | top path _ => some path

variable {source : Source} {way : List String}

theorem value?_remove (h : ∀ path ∈ source.path? way, apart (root :: rest) path)
    (holder : Fields Value) :
    source.value? (remove data (root :: rest)) holder = source.value? data holder := by
  cases source with
  | given v => rfl
  | sibling name pick => rfl
  | top path pick => simp only [value?, lookup_remove (h path rfl)]

theorem value?_remove_top (h : ∀ path ∈ source.path? [], apart (root :: rest) path)
    (holder : Fields Value) :
    source.value? data (remove holder (root :: rest)) = source.value? data holder := by
  cases source with
  | given v => rfl
  | sibling name pick =>
    have hne : root ≠ name := ne_of_apart_single (h [name] rfl)
    simp only [value?, get?_remove_of_ne hne]
  | top path pick => rfl

end Source

namespace Rule

variable (r : Rule)

theorem way_append_field : r.way ++ [r.field] = canonical r.path :=
  List.dropLast_concat_getLast r.canonical_ne_nil

theorem property_of_way_cons {way : List String} (h : r.way = key :: way) : key = r.property := by
  have hc := r.way_append_field
  rw [h] at hc
  simp [property, ← hc]

theorem field_eq_property (h : r.way = []) : r.field = r.property := by
  have hc := r.way_append_field
  rw [h] at hc
  simp [property, ← hc]

def readPath? : Option (List String) :=
  match r.action with
  | .add source | .replace source => source.path? r.way
  | _ => none

/-- The path from the top at which a rule may take a value out. -/
def takenPath? : Option (List String) :=
  match r.action with
  | .replace source => source.path? r.way
  | _ => none

/-- The path at which a rule does take a value out. -/
def vacated (data : Fields Value) : List (List String) :=
  match r.action with
  | .replace source =>
    if (holders r.way data).any fun holder => (source.value? data holder).isSome then
      (source.path? r.way).toList
    else []
  | _ => []

variable {r}

theorem edit_way_remove {m : Type → Type} [Monad m] [LawfulMonad m]
    {change : Fields Value → m (Fields Value)} (h : root ≠ r.property)
    (hc : r.way = [] → change (remove data (root :: rest)) =
      (remove · (root :: rest)) <$> change data) :
    edit change r.way (remove data (root :: rest)) =
      (remove · (root :: rest)) <$> edit change r.way data := by
  cases hw : r.way with
  | nil => exact hc hw
  | cons key way => exact edit_remove change (r.property_of_way_cons hw ▸ h) data

theorem addTo_remove {source : Source} (h : root ≠ r.property) (hw : r.way = [])
    (ha : ∀ path ∈ source.path? r.way, apart (root :: rest) path) :
    r.addTo source data (remove data (root :: rest)) =
      (remove · (root :: rest)) <$> r.addTo source data data := by
  rw [hw] at ha
  have hf : root ≠ r.field := r.field_eq_property hw ▸ h
  simp only [addTo, Source.value?_remove_top ha, get?_remove_of_ne hf]
  cases source.value? data data with
  | none => rfl
  | some v =>
    dsimp only
    split
    · simp [remove_insert hf, remove_erase hf]
    · simp [remove_insert hf, remove_erase hf]
    · simp [remove_insert hf, remove_erase hf]
    · rfl

theorem replaceIn_remove {source : Source} (h : root ≠ r.property) (hw : r.way = [])
    (ha : ∀ path ∈ source.path? r.way, apart (root :: rest) path) :
    r.replaceIn source data (remove data (root :: rest)) =
      (remove · (root :: rest)) <$> r.replaceIn source data data := by
  rw [hw] at ha
  have hf : root ≠ r.field := r.field_eq_property hw ▸ h
  simp only [replaceIn, Source.value?_remove_top ha, get?_remove_of_ne hf]
  cases source.value? data data with
  | none => rfl
  | some v =>
    cases source with
    | given w => simp [Source.name?, remove_insert hf]
    | sibling name pick =>
      have hne : root ≠ name := ne_of_apart_single (ha [name] rfl)
      cases ((data.get? r.field).filter (!·.isNull)).isSome with
      | false => simp [remove_insert hf, remove_erase hne]
      | true => rfl
    | top path pick =>
      cases ((data.get? r.field).filter (!·.isNull)).isSome with
      | false => simp [remove_insert hf]
      | true => rfl

theorem resolveIn_remove {l : Lookup} (h : root ≠ r.property) (hw : r.way = []) :
    r.resolveIn l (remove data (root :: rest)) =
      (remove · (root :: rest)) <$> r.resolveIn l data := by
  have hf : root ≠ r.field := r.field_eq_property hw ▸ h
  simp only [resolveIn, get?_remove_of_ne hf]
  split <;> simp [remove_insert hf]

theorem holders_remove {way : List String} (h : root ≠ key) :
    holders (key :: way) (remove data (root :: rest)) = holders (key :: way) data := by
  simp only [holders, get?_remove_of_ne h]

theorem any_holders_remove {source : Source} (h : root ≠ r.property)
    (ha : ∀ path ∈ source.path? r.way, apart (root :: rest) path) :
    ((holders r.way (remove data (root :: rest))).any fun holder =>
      (source.value? (remove data (root :: rest)) holder).isSome) =
    (holders r.way data).any fun holder => (source.value? data holder).isSome := by
  simp only [Source.value?_remove ha]
  cases hw : r.way with
  | nil =>
    rw [hw] at ha
    simp [holders, Source.value?_remove_top ha]
  | cons key way => rw [holders_remove (r.property_of_way_cons hw ▸ h)]

theorem vacated_remove (h : root ≠ r.property)
    (ha : ∀ path ∈ r.readPath?, apart (root :: rest) path) :
    r.vacated (remove data (root :: rest)) = r.vacated data := by
  unfold vacated
  unfold readPath? at ha
  cases hr : r.action with
  | replace source =>
    rw [hr] at ha
    simp only [any_holders_remove h ha]
  | _ => rfl

theorem vacate_remove {source : Source} {changed : Fields Value} (h : root ≠ r.property)
    (ha : ∀ path ∈ source.path? r.way, apart (root :: rest) path) :
    r.vacate source (remove data (root :: rest)) (remove changed (root :: rest)) =
      remove (r.vacate source data changed) (root :: rest) := by
  cases source with
  | top path pick =>
    simp only [vacate, any_holders_remove h ha]
    split
    · exact remove_comm (ha path rfl) changed
    · rfl
  | _ => rfl

theorem apply_remove (clientResolve : Bool) (h : root ≠ r.property)
    (ha : ∀ path ∈ r.readPath?, apart (root :: rest) path) :
    r.apply clientResolve (remove data (root :: rest)) =
      (remove · (root :: rest)) <$> r.apply clientResolve data := by
  unfold apply
  unfold readPath? at ha
  cases hr : r.action with
  | add source =>
    rw [hr] at ha
    have hd : r.addTo source (remove data (root :: rest)) = r.addTo source data := by
      funext holder
      simp only [addTo, Source.value?_remove ha]
    simp only [hd, edit_way_remove h fun hw => addTo_remove h hw ha, liftM_map_result]
  | replace source =>
    rw [hr] at ha
    have hd : r.replaceIn source (remove data (root :: rest)) = r.replaceIn source data := by
      funext holder
      simp only [replaceIn, Source.value?_remove ha]
    simp only [hd, edit_way_remove h fun hw => replaceIn_remove h hw ha, liftM_map_result]
    simp [vacate_remove h ha]
  | resolve l =>
    cases clientResolve with
    | true => exact edit_way_remove h fun hw => resolveIn_remove h hw
    | false => simp
  | delete =>
    refine edit_way_remove h fun hw => ?_
    simp [remove_erase (r.field_eq_property hw ▸ h)]

end Rule

end Orchestration.Migration
