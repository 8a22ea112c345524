import Orchestration.Breadcrumb
import Orchestration.Proofs.Fields
import Orchestration.Proofs.Values.Loops

namespace Orchestration.Value

/-- What stands at the end of a breadcrumb; `none` when there is no such key or index. -/
def follow? : Value → Breadcrumb → Option Value
  | v, [] => some v
  | .map fields, .key name :: path => (Fields.get? fields name).bind (·.follow? path)
  | .list items, .index i :: path => items[i]?.bind (·.follow? path)
  | _, _ => none

variable {v w : Value} {items : List Value} {fields : Fields Value} {path : Breadcrumb}

@[simp] theorem follow?_nil (v : Value) : v.follow? [] = some v := by
  cases v <;> rfl

theorem follow?_item {i : Nat} (h : items[i]? = some v) :
    (list items).follow? (.index i :: path) = v.follow? path := by
  rw [follow?, h]
  rfl

theorem follow?_field {name : String} (h : fields.get? name = some v) :
    (map fields).follow? (.key name :: path) = v.follow? path := by
  rw [follow?, h]
  rfl

@[simp] theorem follow?_single (name : String) (v : Value) (path : Breadcrumb) :
    (map [(name, v)]).follow? (.key name :: path) = v.follow? path :=
  follow?_field (if_pos rfl)

theorem follow?_append (v : Value) (p q : Breadcrumb) :
    v.follow? (p ++ q) = (v.follow? p).bind (·.follow? q) := by
  induction p generalizing v with
  | nil => simp
  | cons segment rest ih =>
    cases v with
    | scalar s => cases segment <;> rfl
    | list items =>
      cases segment with
      | key name => rfl
      | index i =>
        simp only [List.cons_append, follow?, Option.bind_assoc]
        exact congrArg _ (funext ih)
    | map fields =>
      cases segment with
      | key name =>
        simp only [List.cons_append, follow?, Option.bind_assoc]
        exact congrArg _ (funext ih)
      | index i => rfl

theorem follow?_scalar_of_ne {s : Scalar} (hne : path ≠ []) : (scalar s).follow? path = none := by
  match path with
  | [] => exact absurd rfl hne
  | .key _ :: _ => rfl
  | .index _ :: _ => rfl

theorem exists_key_of_follow? (hne : path ≠ []) (h : (map fields).follow? path = some v) :
    ∃ name rest, path = .key name :: rest := by
  match path with
  | [] => exact absurd rfl hne
  | .key name :: rest => exact ⟨name, rest, rfl⟩
  | .index _ :: _ => cases h

theorem exists_index_of_follow? (hne : path ≠ []) (h : (list items).follow? path = some v) :
    ∃ i rest, path = .index i :: rest := by
  match path with
  | [] => exact absurd rfl hne
  | .index i :: rest => exact ⟨i, rest, rfl⟩
  | .key _ :: _ => cases h

section

variable {f : String → String}

theorem keysApart_of_item {i : Nat} (h : itemsKeysApart f items = true) (hv : items[i]? = some v) :
    v.keysApart f = true := by
  induction items generalizing i with
  | nil => cases hv
  | cons w rest ih =>
    obtain ⟨hw, hrest⟩ := Bool.and_eq_true_iff.1 h
    cases i with
    | zero => exact Option.some.inj hv ▸ hw
    | succ i => exact ih hrest hv

theorem keysApart_of_field {key : String} (h : fieldsKeysApart f fields = true)
    (hv : (key, v) ∈ fields) : v.keysApart f = true := by
  induction fields with
  | nil => cases hv
  | cons e rest ih =>
    obtain ⟨he, hrest⟩ := Bool.and_eq_true_iff.1 h
    obtain rfl | hv := List.mem_cons.1 hv
    · exact he
    · exact ih hrest hv

theorem keysApart_map : (map fields).keysApart f = true ↔
    (fields.map fun e => f e.1).Nodup ∧ fieldsKeysApart f fields = true := by
  rw [keysApart, Bool.and_eq_true, decide_eq_true_eq]

end

/-- Every map in a value has each key once. -/
def Tidy (v : Value) : Prop := v.keysApart id = true

theorem tidy_scalar (s : Scalar) : (scalar s).Tidy := rfl

theorem tidy_list_iff : (list items).Tidy ↔ ∀ v ∈ items, v.Tidy := by
  unfold Tidy
  rw [keysApart]
  induction items with
  | nil => simp [itemsKeysApart]
  | cons v rest ih => simp [itemsKeysApart, ih]

theorem fieldsKeysApart_iff {f : String → String} :
    fieldsKeysApart f fields = true ↔ ∀ e ∈ fields, e.2.keysApart f = true := by
  induction fields with
  | nil => simp [fieldsKeysApart]
  | cons e rest ih => simp [fieldsKeysApart, ih]

theorem tidy_map_iff : (map fields).Tidy ↔ fields.keys.Nodup ∧ ∀ e ∈ fields, e.2.Tidy := by
  unfold Tidy
  rw [keysApart_map, fieldsKeysApart_iff]
  rfl

namespace Tidy

theorem nodup (h : (map fields).Tidy) : fields.keys.Nodup := (tidy_map_iff.1 h).1

theorem get? (h : (map fields).Tidy) (hv : fields.get? key = some v) : v.Tidy :=
  (tidy_map_iff.1 h).2 (key, v) (Fields.mem_of_get? hv)

theorem item (h : (list items).Tidy) (hv : v ∈ items) : v.Tidy := tidy_list_iff.1 h v hv

end Tidy

theorem follow?_of_mem {key : String} (h : (map fields).keysApart id = true)
    (hv : (key, v) ∈ fields) : (map fields).follow? (.key key :: path) = v.follow? path :=
  follow?_field (Fields.get?_of_mem (keysApart_map.1 h).1 hv)

end Orchestration.Value
