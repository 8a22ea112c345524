import Mathlib.Data.List.Perm.Basic
import Orchestration.Json.Writer
import Orchestration.Proofs.Fields

namespace Orchestration

namespace Value

theorem sortItems_eq (items : List Value) : sortItems items = items.map sortKeys := by
  induction items with
  | nil => rfl
  | cons v rest ih => exact congrArg _ ih

theorem sortFields_eq (fields : Fields Value) :
    sortFields fields = fields.map fun e => (e.1, e.2.sortKeys) := by
  induction fields with
  | nil => rfl
  | cons e rest ih => exact congrArg _ ih

theorem sortKeys_map (fields : Fields Value) :
    (Value.map fields).sortKeys = .map (Fields.mergeSortKeys (sortFields fields)) := by
  rw [sortKeys]
  rfl

/-- The same value but for the order of map entries. -/
def Alike (v w : Value) : Prop := v.sortKeys = w.sortKeys

namespace Alike

variable {v w u : Value} {s : Scalar} {items items' : List Value} {m m' : Fields Value}

theorem refl (v : Value) : v.Alike v := rfl

theorem trans (h : v.Alike w) (h' : w.Alike u) : v.Alike u := Eq.trans h h'

theorem eq_scalar (h : Alike (.scalar s) w) : w = .scalar s := by
  cases w with
  | scalar s' => cases h; rfl
  | list items => simp [Alike, sortKeys] at h
  | map fields => simp [Alike, sortKeys] at h

theorem list_iff : Alike (.list items) (.list items') ↔ List.Forall₂ Alike items items' := by
  rw [Alike, sortKeys, sortKeys, list.injEq, sortItems_eq, sortItems_eq, ← List.forall₂_eq_eq_eq,
    List.forall₂_map_left_iff, List.forall₂_map_right_iff]
  rfl

theorem eq_list (h : Alike (.list items) w) :
    ∃ items', w = .list items' ∧ List.Forall₂ Alike items items' := by
  cases w with
  | list items' => exact ⟨items', rfl, list_iff.1 h⟩
  | _ => simp [Alike, sortKeys] at h

theorem map_iff : Alike (.map m) (.map m') ↔
    ∀ key, List.Forall₂ Alike (m.under key) (m'.under key) := by
  rw [Alike, sortKeys_map, sortKeys_map, map.injEq]
  refine Fields.mergeSortKeys_eq_iff.trans (forall_congr' fun key => ?_)
  rw [sortFields_eq, sortFields_eq, Fields.under_map, Fields.under_map, ← List.forall₂_eq_eq_eq,
    List.forall₂_map_left_iff, List.forall₂_map_right_iff]
  rfl

theorem eq_map (h : Alike (.map m) w) : ∃ m', w = .map m' ∧ Alike (.map m) (.map m') := by
  cases w with
  | map m' => exact ⟨m', rfl, h⟩
  | _ => simp [Alike, sortKeys] at h

inductive Cases : Value → Value → Prop
  | scalar (s : Scalar) : Cases (.scalar s) (.scalar s)
  | list {items items' : List Value} :
      List.Forall₂ Alike items items' → Cases (.list items) (.list items')
  | map {m m' : Fields Value} : Alike (.map m) (.map m') → Cases (.map m) (.map m')

theorem cases (h : v.Alike w) : Cases v w := by
  cases v with
  | scalar s =>
    rw [h.eq_scalar]
    exact .scalar s
  | list items =>
    obtain ⟨items', rfl, hitems⟩ := h.eq_list
    exact .list hitems
  | map m =>
    obtain ⟨m', rfl, hm⟩ := h.eq_map
    exact .map hm

theorem get? (h : Alike (.map m) (.map m')) (key : String) :
    Option.Rel Alike (m.get? key) (m'.get? key) := by
  rw [Fields.get?_eq_head?_under, Fields.get?_eq_head?_under]
  have hunder := map_iff.1 h key
  generalize m.under key = values at hunder
  generalize m'.under key = values' at hunder
  cases hunder with
  | nil => exact .none
  | cons hv _ => exact .some hv

theorem exists_perm (h : Alike (.map m) (.map m')) :
    ∃ n : Fields Value, List.Forall₂ (Fields.Entry Alike) m n ∧ n.Perm m' := by
  rw [Alike, sortKeys_map, sortKeys_map, map.injEq, sortFields_eq, sortFields_eq] at h
  have hsort := Fields.mergeSortKeys_perm (m.map fun e => (e.1, e.2.sortKeys))
  rw [h] at hsort
  have hperm := hsort.symm.trans (Fields.mergeSortKeys_perm _)
  have hself : List.Forall₂ (fun x (e : String × Value) => x = (e.1, e.2.sortKeys))
      (m'.map fun e => (e.1, e.2.sortKeys)) m' :=
    List.forall₂_map_left_iff.2 (List.forall₂_same.2 fun _ _ => rfl)
  obtain ⟨n, hn, hnm⟩ := List.perm_comp_forall₂ hperm hself
  refine ⟨n, (List.forall₂_map_left_iff.1 hn).imp fun e e' he => ?_, hnm⟩
  obtain ⟨hkey, hv⟩ := Prod.mk.inj he
  exact ⟨hkey, hv⟩

theorem of_forall₂ (h : List.Forall₂ (Fields.Entry Alike) m m') : Alike (.map m) (.map m') := by
  refine map_iff.2 fun key => ?_
  induction h with
  | nil => exact .nil
  | @cons e e' rest rest' he _ ih =>
    rw [Fields.under_cons, Fields.under_cons, he.1]
    split
    · exact .cons he.2 ih
    · exact ih

theorem of_perm (h : m.Perm m') (hkeys : m.keys.Nodup) : Alike (.map m) (.map m') := by
  refine map_iff.2 fun key => ?_
  have hkeys' : Fields.keys m' |>.Nodup := (h.map Prod.fst).nodup_iff.1 hkeys
  rw [Fields.under_of_nodup hkeys, Fields.under_of_nodup hkeys', Fields.get?_of_perm h hkeys]
  exact List.forall₂_same.2 fun _ _ => rfl

theorem of_entries {n : Fields Value} (h : List.Forall₂ (Fields.Entry Alike) m n)
    (hperm : n.Perm m') (hkeys : m.keys.Nodup) : Alike (.map m) (.map m') :=
  (of_forall₂ h).trans (of_perm hperm (Fields.keys_eq h ▸ hkeys))

theorem keys_perm (h : Alike (.map m) (.map m')) : m.keys.Perm m'.keys := by
  obtain ⟨n, hn, hperm⟩ := h.exists_perm
  rw [Fields.keys_eq hn]
  exact hperm.map Prod.fst

theorem forall₂_of_keys_eq (h : Alike (.map m) (.map m'))
    (hkeys : m.keys = m'.keys) : List.Forall₂ (Fields.Entry Alike) m m' := by
  induction m generalizing m' with
  | nil =>
    obtain rfl : m' = [] := List.map_eq_nil_iff.1 hkeys.symm
    exact .nil
  | cons e rest ih =>
    obtain ⟨e', rest', rfl, hkey, hrest⟩ := List.map_eq_cons_iff.1 hkeys.symm
    have hunder (key : String) := map_iff.1 h key
    simp only [Fields.under_cons, hkey] at hunder
    refine .cons ⟨hkey.symm, ?_⟩ (ih (map_iff.2 fun key => ?_) hrest.symm)
    · have hhead := hunder e.1
      simp only [↓reduceIte] at hhead
      cases hhead with
      | cons hv _ => exact hv
    · have htail := hunder key
      split at htail
      · cases htail with
        | cons _ htail => exact htail
      · exact htail

end Alike

/-! Equality and texts. -/

theorem within_eq (xs ys : Fields Value) : within xs ys =
    xs.all fun e => ((ys.get? e.1).map e.2.equal).getD false := by
  induction xs with
  | nil => rfl
  | cons e rest ih =>
    rw [within, ih, List.all_cons]
    cases ys.get? e.1 <;> rfl

theorem within_perm {xs xs' ys : Fields Value} (h : xs.Perm xs') :
    within xs ys = within xs' ys := by
  rw [within_eq, within_eq, h.all_eq]

mutual

theorem equal_sortKeys : ∀ v w : Value, v.sortKeys.equal w.sortKeys = v.equal w
  | .scalar a, .scalar b => by rw [sortKeys, sortKeys]
  | .list xs, .list ys => by
    rw [sortKeys, sortKeys, equal, equal, equalItems_sortItems xs ys]
  | .map xs, .map ys => by
    rw [sortKeys_map, sortKeys_map, equal, equal, within_perm (Fields.mergeSortKeys_perm _),
      within_sortFields xs ys, (Fields.mergeSortKeys_perm _).length_eq,
      (Fields.mergeSortKeys_perm _).length_eq, sortFields_eq, sortFields_eq, List.length_map,
      List.length_map]
  | .scalar _, .list _ | .scalar _, .map _ | .list _, .scalar _
  | .list _, .map _ | .map _, .scalar _ | .map _, .list _ => by simp [sortKeys, equal]

theorem equalItems_sortItems :
    ∀ xs ys : List Value, equalItems (sortItems xs) (sortItems ys) = equalItems xs ys
  | [], [] => rfl
  | [], _ :: _ => rfl
  | _ :: _, [] => rfl
  | x :: xs, y :: ys => by
    simp only [sortItems, equalItems, equal_sortKeys x y, equalItems_sortItems xs ys]

theorem within_sortFields : ∀ xs ys : List (String × Value),
    within (sortFields xs) (Fields.mergeSortKeys (sortFields ys)) = within xs ys
  | [], _ => rfl
  | (k, v) :: rest, ys => by
    rw [sortFields, within, within, within_sortFields rest ys, Fields.get?_mergeSortKeys,
      sortFields_eq, Fields.get?_map]
    cases Fields.get? ys k with
    | none => rfl
    | some w => exact congrArg (· && within rest ys) (equal_sortKeys v w)

end

namespace Alike

variable {v v' w w' : Value} {items items' : List Value}

theorem equal (hv : v.Alike v') (hw : w.Alike w') : v.equal w = v'.equal w' := by
  rw [← equal_sortKeys v, ← equal_sortKeys v', hv, hw]

theorem among (h : List.Forall₂ Alike items items') (hv : v.Alike v') :
    Value.among items v = Value.among items' v' := by
  induction h with
  | nil => rfl
  | cons hw _ ih => exact congrArg₂ (· || ·) (hw.equal hv) ih

theorem sortedJson (h : v.Alike w) : v.sortedJson = w.sortedJson := by
  rw [Value.sortedJson, h, Value.sortedJson]

theorem plain? (h : v.Alike w) : v.plain? = w.plain? := by
  cases h.cases <;> rfl

theorem text? (h : v.Alike w) : v.text? = w.text? := by
  cases h.cases <;> rfl

theorem mapM_text? (h : List.Forall₂ Alike items items') :
    items.mapM Value.text? = items'.mapM Value.text? := by
  induction h with
  | nil => rfl
  | cons hv _ ih => rw [List.mapM_cons, List.mapM_cons, hv.text?, ih]

end Alike

end Value

end Orchestration
