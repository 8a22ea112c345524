import Orchestration.Migration.Path

/-!
Paths that lead apart. Main statements: values at the ends of two such paths can be taken out in
either order, and taking out one leaves the other where it is.
-/

namespace Orchestration

namespace Fields

variable {α : Type} {f g : α → Option α} {key other : String}

def alter : Fields α → String → (α → Option α) → Fields α
  | [], _, _ => []
  | (k, v) :: rest, key, f =>
    if k = key then
      match f v with
      | some v => (k, v) :: rest
      | none => rest
    else (k, v) :: alter rest key f

theorem erase_eq_alter (m : Fields α) (key : String) : m.erase key = m.alter key fun _ => none := by
  induction m with
  | nil => rfl
  | cons e rest ih => simp [erase, alter, ih]

theorem alter_comm (m : Fields α) (h : key ≠ other) :
    (m.alter key f).alter other g = (m.alter other g).alter key f := by
  induction m with
  | nil => rfl
  | cons e rest ih =>
    by_cases hk : e.1 = key
    · have ho : e.1 ≠ other := fun ho => h (hk.symm.trans ho)
      cases hf : f e.2 <;> simp [alter, hk, hf, h]
    · by_cases ho : e.1 = other
      · cases hg : g e.2 <;> simp [alter, ho, hg, Ne.symm h]
      · simp [alter, hk, ho, ih]

theorem alter_alter (m : Fields α) (hf : ∀ v, f v ≠ none) :
    (m.alter key f).alter key g = m.alter key fun v => (f v).bind g := by
  induction m with
  | nil => rfl
  | cons e rest ih =>
    by_cases hk : e.1 = key
    · cases hv : f e.2 with
      | none => exact absurd hv (hf e.2)
      | some v => simp [alter, hk, hv]
    · simp [alter, hk, ih]

theorem alter_insert (m : Fields α) (v : α) (h : key ≠ other) :
    (m.insert other v).alter key f = (m.alter key f).insert other v := by
  induction m with
  | nil => simp [insert, alter, h.symm]
  | cons e rest ih =>
    by_cases hk : e.1 = key
    · cases hf : f e.2 <;> simp [insert, alter, hk, hf, h]
    · by_cases ho : e.1 = other
      · simp [insert, alter, ho, h.symm]
      · simp [insert, alter, hk, ho, ih]

theorem get?_alter_of_ne (m : Fields α) (h : key ≠ other) :
    (m.alter key f).get? other = m.get? other := by
  induction m with
  | nil => rfl
  | cons e rest ih =>
    by_cases hk : e.1 = key
    · cases hf : f e.2 <;> simp [alter, get?, hk, hf, h]
    · simp [alter, get?, hk, ih]

theorem get?_alter_of_some (m : Fields α) (hf : ∀ v, f v ≠ none) :
    (m.alter key f).get? key = (m.get? key).bind f := by
  induction m with
  | nil => rfl
  | cons e rest ih =>
    by_cases hk : e.1 = key
    · cases hv : f e.2 with
      | none => exact absurd hv (hf e.2)
      | some v => simp [alter, get?, hk, hv]
    · simp [alter, get?, hk, ih]

theorem alter_eq_of_some {m : Fields α} {v v' : α} (h : m.get? key = some v) (hf : f v = some v') :
    m.alter key f = m.insert key v' := by
  induction m with
  | nil => cases h
  | cons e rest ih =>
    by_cases hk : e.1 = key
    · simp only [get?, hk, ↓reduceIte, Option.some.injEq] at h
      simp [alter, insert, hk, h, hf]
    · simp only [get?, hk, ↓reduceIte] at h
      simp [alter, insert, hk, ih h]

theorem alter_eq_self {m : Fields α} (h : ∀ v, m.get? key = some v → f v = some v) :
    m.alter key f = m := by
  induction m with
  | nil => rfl
  | cons e rest ih =>
    by_cases hk : e.1 = key
    · have hv : f e.2 = some e.2 := h e.2 (by simp [get?, hk])
      simp [alter, hv, Prod.ext_iff, hk]
    · have hr : alter rest key f = rest := ih fun v hv => h v (by simpa [get?, hk] using hv)
      simp [alter, hk, hr]

end Fields

namespace Migration

/-- Wherever there are lists on the way, taking out the value at one path moves nothing at the
other one. -/
def apart : List String → List String → Bool
  | a :: p, b :: q =>
    match Text.unsigned? a.toList, Text.unsigned? b.toList with
    | some i, some j => if i = j then apart p q else !p.isEmpty && !q.isEmpty
    | _, _ => if a = b then apart p q else true
  | _, _ => false

def cut : List String → Value → Option Value
  | [], _ => none
  | path, .map fields => some (.map (remove fields path))
  | path, .list items => some (.list (removeItem items path))
  | _, v => some v

/-- What is left of an item of a list; lists in it are not entered. -/
def cutItem (path : List String) : Value → Value
  | .map fields => .map (remove fields path)
  | v => v

variable {a b : String} {p q : List String}

theorem cut_ne_none (h : p ≠ []) (v : Value) : cut p v ≠ none := by
  cases p with
  | nil => exact absurd rfl h
  | cons a p => cases v <;> simp [cut]

theorem remove_cons (data : Fields Value) (key : String) (path : List String) :
    remove data (key :: path) = data.alter key (cut path) := by
  cases path with
  | nil => exact data.erase_eq_alter key
  | cons a path =>
    have hne : a :: path = [] → False := by simp
    cases h : data.get? key with
    | none =>
      rw [remove, h, Fields.alter_eq_self (by simp [h])]
      exact hne
    | some v =>
      cases v with
      | scalar s =>
        rw [remove, h, Fields.alter_eq_self (by rw [h]; rintro v ⟨⟩; rfl)]
        exact hne
      | list items =>
        have hc : cut (a :: path) (.list items) = some (.list (removeItem items (a :: path))) := rfl
        rw [remove, h, Fields.alter_eq_of_some h hc]
        exact hne
      | map fields =>
        have hc : cut (a :: path) (.map fields) = some (.map (remove fields (a :: path))) := rfl
        rw [remove, h, Fields.alter_eq_of_some h hc]
        exact hne

theorem removeItem_of_none (items : List Value) (h : Text.unsigned? a.toList = none) :
    removeItem items (a :: p) = items := by
  rw [removeItem, show itemIndex? items a = none by simp [itemIndex?, h]]

theorem removeItem_of_some (items : List Value) {i : Nat} (h : Text.unsigned? a.toList = some i)
    (hp : p ≠ []) : removeItem items (a :: p) = items.modify i (cutItem p) := by
  obtain ⟨b, p, rfl⟩ := List.exists_cons_of_ne_nil hp
  rw [removeItem]
  by_cases hi : i < items.length
  · have hv : items[i]? = some items[i] := List.getElem?_eq_getElem hi
    rw [show itemIndex? items a = some i by simp [itemIndex?, h, hi]]
    simp only [hv]
    rw [List.modify_eq_set, hv, Option.getD_some]
    cases hc : items[i] with
    | map fields => rfl
    | scalar s =>
      rw [cutItem, ← hc, List.set_getElem_self, hc]
      simp
    | list inner =>
      rw [cutItem, ← hc, List.set_getElem_self, hc]
      simp
  · have hn : itemIndex? items a = none := by
      simp only [itemIndex?, h]
      simpa using hi
    rw [hn]
    exact (List.modify_eq_self (Nat.not_lt.1 hi)).symm

theorem apart_of_apart_cons (h : apart (a :: p) (a :: q)) : apart p q := by
  cases ha : Text.unsigned? a.toList <;> simpa [apart, ha] using h

theorem apart_of_index_eq {i : Nat} (ha : Text.unsigned? a.toList = some i)
    (hb : Text.unsigned? b.toList = some i) (h : apart (a :: p) (b :: q)) : apart p q := by
  simpa [apart, ha, hb] using h

theorem ne_nil_of_index_ne {i j : Nat} (ha : Text.unsigned? a.toList = some i)
    (hb : Text.unsigned? b.toList = some j) (hij : i ≠ j) (h : apart (a :: p) (b :: q)) :
    p ≠ [] ∧ q ≠ [] := by
  simpa [apart, ha, hb, hij] using h

theorem ne_nil_of_apart (h : apart p q) : p ≠ [] ∧ q ≠ [] := by
  cases p <;> cases q <;> simp_all [apart]

theorem apart_comm (p q : List String) : apart p q = apart q p := by
  induction p generalizing q with
  | nil => cases q <;> rfl
  | cons a p ih =>
    cases q with
    | nil => rfl
    | cons b q =>
      cases ha : Text.unsigned? a.toList <;> cases hb : Text.unsigned? b.toList <;>
        simp [apart, ha, hb, ih q, eq_comm, Bool.and_comm]

theorem cut_comm (hr : ∀ data, remove (remove data p) q = remove (remove data q) p)
    (hi : ∀ items, removeItem (removeItem items p) q = removeItem (removeItem items q) p)
    (hp : p ≠ []) (hq : q ≠ []) (v : Value) : (cut p v).bind (cut q) = (cut q v).bind (cut p) := by
  obtain ⟨a, p, rfl⟩ := List.exists_cons_of_ne_nil hp
  obtain ⟨b, q, rfl⟩ := List.exists_cons_of_ne_nil hq
  cases v with
  | scalar s => rfl
  | list items => exact congrArg (some ∘ Value.list) (hi items)
  | map fields => exact congrArg (some ∘ Value.map) (hr fields)

theorem cutItem_comm (hr : ∀ data, remove (remove data p) q = remove (remove data q) p) :
    cutItem q ∘ cutItem p = cutItem p ∘ cutItem q := by
  funext v
  cases v with
  | scalar s => rfl
  | list items => rfl
  | map fields => exact congrArg Value.map (hr fields)

theorem removeItem_comm (hr : apart p q → ∀ data, remove (remove data p) q = remove (remove data q) p)
    (h : apart (a :: p) (b :: q)) (items : List Value) :
    removeItem (removeItem items (a :: p)) (b :: q) =
      removeItem (removeItem items (b :: q)) (a :: p) := by
  cases ha : Text.unsigned? a.toList with
  | none => rw [removeItem_of_none _ ha, removeItem_of_none _ ha]
  | some i =>
    cases hb : Text.unsigned? b.toList with
    | none => rw [removeItem_of_none _ hb, removeItem_of_none _ hb]
    | some j =>
      by_cases hij : i = j
      · subst hij
        have hpq := apart_of_index_eq ha hb h
        obtain ⟨hp, hq⟩ := ne_nil_of_apart hpq
        simp only [removeItem_of_some _ ha hp, removeItem_of_some _ hb hq, List.modify_modify_eq,
          cutItem_comm (hr hpq)]
      · obtain ⟨hp, hq⟩ := ne_nil_of_index_ne ha hb hij h
        simp only [removeItem_of_some _ ha hp, removeItem_of_some _ hb hq]
        exact List.modify_modify_ne _ _ _ hij

theorem removals_comm (h : apart p q) :
    (∀ data, remove (remove data p) q = remove (remove data q) p) ∧
      ∀ items, removeItem (removeItem items p) q = removeItem (removeItem items q) p := by
  induction p generalizing q with
  | nil => simp [apart] at h
  | cons a p ih =>
    cases q with
    | nil => simp [apart] at h
    | cons b q =>
      refine ⟨fun data => ?_, removeItem_comm (fun hpq => (ih hpq).1) h⟩
      simp only [remove_cons]
      by_cases hab : a = b
      · subst hab
        have hpq := apart_of_apart_cons h
        obtain ⟨hp, hq⟩ := ne_nil_of_apart hpq
        obtain ⟨hr, hi⟩ := ih hpq
        rw [Fields.alter_alter _ (cut_ne_none hp), Fields.alter_alter _ (cut_ne_none hq)]
        simp only [cut_comm hr hi hp hq]
      · exact Fields.alter_comm data hab

/-- Values at paths that lead apart can be taken out in either order. -/
theorem remove_comm (h : apart p q) (data : Fields Value) :
    remove (remove data p) q = remove (remove data q) p := (removals_comm h).1 data

theorem select?_text_cons (v : Value) (key : String) (path : List String) :
    v.select? ((key :: path).map .text) = (v.at? (.text key)).bind (·.select? (path.map .text)) := rfl

theorem select?_cut (hr : ∀ data, (Value.map (remove data p)).select? (q.map .text) =
      (Value.map data).select? (q.map .text))
    (hi : ∀ items, (Value.list (removeItem items p)).select? (q.map .text) =
      (Value.list items).select? (q.map .text))
    (hp : p ≠ []) (v : Value) :
    (cut p v).bind (·.select? (q.map .text)) = v.select? (q.map .text) := by
  obtain ⟨a, p, rfl⟩ := List.exists_cons_of_ne_nil hp
  cases v with
  | scalar s => rfl
  | list items => exact hi items
  | map fields => exact hr fields

theorem select?_cutItem (hr : ∀ data, (Value.map (remove data p)).select? (q.map .text) =
    (Value.map data).select? (q.map .text)) (v : Value) :
    (cutItem p v).select? (q.map .text) = v.select? (q.map .text) := by
  cases v with
  | scalar s => rfl
  | list items => rfl
  | map fields => exact hr fields

theorem select?_removeItem (hr : apart p q → ∀ data,
      (Value.map (remove data p)).select? (q.map .text) = (Value.map data).select? (q.map .text))
    (h : apart (a :: p) (b :: q)) (items : List Value) :
    (Value.list (removeItem items (a :: p))).select? ((b :: q).map .text) =
      (Value.list items).select? ((b :: q).map .text) := by
  simp only [select?_text_cons, Value.at?]
  cases hb : Text.unsigned? b.toList with
  | none => rfl
  | some j =>
    simp only [Option.bind_some]
    cases ha : Text.unsigned? a.toList with
    | none => rw [removeItem_of_none _ ha]
    | some i =>
      by_cases hij : i = j
      · subst hij
        have hpq := apart_of_index_eq ha hb h
        rw [removeItem_of_some _ ha (ne_nil_of_apart hpq).1, List.getElem?_modify_eq]
        cases items[i]? with
        | none => rfl
        | some v => exact select?_cutItem (hr hpq) v
      · rw [removeItem_of_some _ ha (ne_nil_of_index_ne ha hb hij h).1,
          List.getElem?_modify_ne _ _ hij]

theorem selections_remove (h : apart p q) :
    (∀ data, (Value.map (remove data p)).select? (q.map .text) =
      (Value.map data).select? (q.map .text)) ∧
    ∀ items, (Value.list (removeItem items p)).select? (q.map .text) =
      (Value.list items).select? (q.map .text) := by
  induction p generalizing q with
  | nil => simp [apart] at h
  | cons a p ih =>
    cases q with
    | nil => simp [apart] at h
    | cons b q =>
      refine ⟨fun data => ?_, select?_removeItem (fun hpq => (ih hpq).1) h⟩
      simp only [remove_cons, select?_text_cons, Value.at?]
      by_cases hab : a = b
      · subst hab
        have hpq := apart_of_apart_cons h
        obtain ⟨hr, hi⟩ := ih hpq
        have hp := (ne_nil_of_apart hpq).1
        rw [Fields.get?_alter_of_some _ (cut_ne_none hp), Option.bind_assoc]
        simp only [select?_cut hr hi hp]
      · rw [Fields.get?_alter_of_ne data hab]

theorem lookup_remove (h : apart p q) (data : Fields Value) :
    lookup (remove data p) q = lookup data q := by
  simp only [lookup, (selections_remove h).1 data]

end Migration

end Orchestration
