/-!
Ordered maps with texts as keys. A key keeps the place where it was first written, and its last
value.
-/

namespace Orchestration

abbrev Fields (α : Type) := List (String × α)

namespace Fields

variable {α β : Type}

def get? : Fields α → String → Option α
  | [], _ => none
  | (k, v) :: rest, key => if k = key then some v else get? rest key

def contains (m : Fields α) (key : String) : Bool := (m.get? key).isSome

def keys (m : Fields α) : List String := m.map Prod.fst

def insert : Fields α → String → α → Fields α
  | [], key, value => [(key, value)]
  | (k, v) :: rest, key, value =>
    if k = key then (k, value) :: rest else (k, v) :: insert rest key value

def erase : Fields α → String → Fields α
  | [], _ => []
  | (k, v) :: rest, key => if k = key then rest else (k, v) :: erase rest key

def extend (m other : Fields α) : Fields α := other.foldl (fun m (k, v) => m.insert k v) m

def ofList (entries : List (String × α)) : Fields α := extend [] entries

@[simp] theorem get?_nil (key : String) : get? ([] : Fields α) key = none := rfl

theorem get?_insert (m : Fields α) (key k : String) (v : α) :
    (m.insert key v).get? k = if key = k then some v else m.get? k := by
  induction m with
  | nil => simp [insert, get?]
  | cons e rest ih => grind [insert, get?]

theorem get?_erase_of_ne (m : Fields α) {key k : String} (h : key ≠ k) :
    (m.erase key).get? k = m.get? k := by
  induction m with
  | nil => rfl
  | cons e rest ih => grind [erase, get?]

theorem mem_of_get? {m : Fields α} {key : String} {v : α} (h : m.get? key = some v) :
    (key, v) ∈ m := by
  induction m with
  | nil => cases h
  | cons e rest ih => grind [get?]

theorem contains_iff (m : Fields α) (key : String) : m.contains key = true ↔ key ∈ m.keys := by
  induction m with
  | nil => simp [contains, keys]
  | cons e rest ih => grind [contains, get?, keys]

theorem get?_eq_none_iff (m : Fields α) (key : String) : m.get? key = none ↔ key ∉ m.keys := by
  rw [← contains_iff, contains]
  cases m.get? key <;> simp

theorem get?_erase_self {m : Fields α} (h : m.keys.Nodup) (key : String) :
    (m.erase key).get? key = none := by
  induction m with
  | nil => rfl
  | cons e rest ih =>
    obtain ⟨hk, hr⟩ := List.nodup_cons.1 h
    by_cases he : e.1 = key
    · simpa only [erase, he, ↓reduceIte] using (get?_eq_none_iff rest key).2 (he ▸ hk)
    · simpa only [erase, he, ↓reduceIte, get?] using ih hr

theorem keys_erase_sublist (m : Fields α) (key : String) :
    (m.erase key).keys.Sublist m.keys := by
  induction m with
  | nil => exact .slnil
  | cons e rest ih =>
    by_cases hk : e.1 = key
    · simp [erase, hk, keys]
    · simpa [erase, hk, keys] using ih

theorem keys_insert (m : Fields α) (key : String) (v : α) :
    (m.insert key v).keys = if key ∈ m.keys then m.keys else m.keys ++ [key] := by
  induction m with
  | nil => rfl
  | cons e rest ih => grind [insert, keys]

theorem nodup_keys_insert {m : Fields α} (h : m.keys.Nodup) (key : String) (v : α) :
    (m.insert key v).keys.Nodup := by
  rw [keys_insert]
  split
  · exact h
  · grind

end Fields

end Orchestration
