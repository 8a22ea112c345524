import Orchestration.Breadcrumb
import Orchestration.Proofs.Migration.Frame
import Orchestration.Proofs.Run

/-!
Spots in nested values: what is at the end of a path of texts, or in a field of a map that a
breadcrumb leads to. A way leads through every item of a list, a path through the one that it names.
Main statements: taking something out and editing leave the spots apart from them as they are.
-/

namespace Orchestration

/-- A map that a way leads to, through maps and the items of lists that are maps. -/
inductive Value.Reaches : Value → List String → Fields Value → Prop
  | here {fields : Fields Value} : Reaches (.map fields) [] fields
  | field {fields holder : Fields Value} {key : String} {way : List String} {v : Value} :
    fields.get? key = some v → Reaches v way holder → Reaches (.map fields) (key :: way) holder
  | item {items : List Value} {fields holder : Fields Value} {way : List String} :
    .map fields ∈ items → Reaches (.map fields) way holder → Reaches (.list items) way holder

namespace Migration

/-- The field of a map that a breadcrumb leads to; `none` if it does not lead to a map. -/
def hole : Value → Breadcrumb → String → Option (Option Value)
  | .map fields, [], name => some (Fields.get? fields name)
  | .map fields, .key k :: rest, name => (Fields.get? fields k).bind (hole · rest name)
  | .list items, .index i :: rest, name => items[i]?.bind (hole · rest name)
  | _, _, _ => none

/-- A breadcrumb follows a way, through any item where there is a list. -/
inductive Leads : List String → Breadcrumb → Prop
  | nil : Leads [] []
  | key {way x} (k : String) : Leads way x → Leads (k :: way) (.key k :: x)
  | item {way x} (k : String) (i : Nat) : Leads way x → Leads (k :: way) (.key k :: .index i :: x)

/-- A path does not meet a way of keys that leads through every item of a list. -/
def parted : List String → List String → Bool
  | [s], k :: _ => s ≠ k
  | s :: i :: path, k :: keys =>
    s ≠ k || parted (i :: path) keys &&
      ((Text.unsigned? i.toList).isNone || parted path keys)
  | _, _ => false

def keysApart (keys keys' : List String) : Bool :=
  !keys.isPrefixOf keys' && !keys'.isPrefixOf keys

variable {path keys keys' way way' : List String} {k name : String} {x : Breadcrumb}

theorem ne_nil_of_parted (h : parted path keys) : path ≠ [] := by
  cases path with
  | nil => simp [parted] at h
  | cons s path => simp

theorem parted_of_cons (h : parted (k :: path) (k :: keys)) : parted path keys := by
  cases path with
  | nil => simp [parted] at h
  | cons i path =>
    simp only [parted, ne_eq, not_true_eq_false, decide_false, Bool.false_or, Bool.and_eq_true] at h
    exact h.1

theorem parted_of_index {i : String} {n : Nat} (hi : Text.unsigned? i.toList = some n)
    (h : parted (k :: i :: path) (k :: keys)) : parted path keys := by
  have h' : parted (i :: path) keys ∧ parted path keys := by simpa [parted, hi] using h
  exact h'.2

theorem hole_list_of_leads (h : Leads way x) (items : List Value) :
    hole (.list items) x name = none := by
  cases h <;> rfl

theorem map_of_hole {v : Value} (h : Leads way x) (ho : (hole v x name).isSome) :
    ∃ fields, v = .map fields := by
  cases v with
  | map fields => exact ⟨fields, rfl⟩
  | list items => simp [hole_list_of_leads h] at ho
  | scalar s => cases h <;> simp [hole] at ho

theorem list_of_hole {v : Value} {i : Nat} (ho : (hole v (.index i :: x) name).isSome) :
    ∃ items, v = .list items := by
  cases v with
  | list items => exact ⟨items, rfl⟩
  | _ => simp [hole] at ho

theorem hole_field {data : Fields Value} {v : Value} (h : data.get? k = some v) :
    hole (.map data) (.key k :: x) name = hole v x name := by
  rw [hole, h, Option.bind_some]

theorem hole_insert (data : Fields Value) (v : Value) :
    hole (.map (data.insert k v)) (.key k :: x) name = hole v x name :=
  hole_field (by rw [Fields.get?_insert, if_pos rfl])

theorem hole_item {items : List Value} {v : Value} {i : Nat} (h : items[i]? = some v) :
    hole (.list items) (.index i :: x) name = hole v x name := by
  rw [hole, h, Option.bind_some]

theorem hole_map_index (fields : Fields Value) (i : Nat) :
    hole (.map fields) (.index i :: x) name = none := rfl

theorem hole_removeItem {i : Nat} (h : ∀ j rest, path = j :: rest →
      (Text.unsigned? j.toList).isSome → rest ≠ [] ∧ ∀ data,
        hole (.map (remove data rest)) x name = hole (.map data) x name)
    (hp : path ≠ []) (items : List Value) :
    hole (.list (removeItem items path)) (.index i :: x) name =
      hole (.list items) (.index i :: x) name := by
  obtain ⟨j, rest, rfl⟩ := List.exists_cons_of_ne_nil hp
  cases hj : Text.unsigned? j.toList with
  | none => rw [removeItem_of_none _ hj]
  | some n =>
    obtain ⟨hrest, hr⟩ := h j rest rfl (by simp [hj])
    rw [removeItem_of_some _ hj hrest]
    by_cases hn : n = i
    · subst hn
      simp only [hole, List.getElem?_modify_eq]
      cases items[n]? with
      | none => rfl
      | some v =>
        cases v with
        | map fields => exact hr fields
        | _ => rfl
    · simp only [hole, List.getElem?_modify_ne _ _ hn]

theorem hole_remove (hl : Leads way x) (h : parted path (way ++ [name])) (data : Fields Value) :
    hole (.map (remove data path)) x name = hole (.map data) x name := by
  induction hl generalizing path data with
  | nil =>
    obtain ⟨s, path, rfl⟩ := List.exists_cons_of_ne_nil (ne_nil_of_parted h)
    have hne : s ≠ name := by
      rintro rfl
      have := parted_of_cons h
      cases path <;> simp [parted] at this
    simp only [hole, get?_remove_of_ne hne]
  | @key way x k hl ih =>
    obtain ⟨s, path, rfl⟩ := List.exists_cons_of_ne_nil (ne_nil_of_parted h)
    by_cases hk : s = k
    · subst hk
      have hp := parted_of_cons h
      obtain ⟨i, path, rfl⟩ := List.exists_cons_of_ne_nil (ne_nil_of_parted hp)
      simp only [hole, remove_cons, Fields.get?_alter_of_some _ (cut_ne_none (List.cons_ne_nil i path))]
      cases data.get? s with
      | none => rfl
      | some v =>
        cases v with
        | scalar v => rfl
        | list items => simp [cut, hole_list_of_leads hl]
        | map fields => exact ih hp fields
    · simp only [hole, get?_remove_of_ne hk]
  | @item way x k i hl ih =>
    obtain ⟨s, path, rfl⟩ := List.exists_cons_of_ne_nil (ne_nil_of_parted h)
    by_cases hk : s = k
    · subst hk
      have hp := parted_of_cons h
      have hne := ne_nil_of_parted hp
      simp only [hole, remove_cons, Fields.get?_alter_of_some _ (cut_ne_none hne)]
      cases data.get? s with
      | none => rfl
      | some v =>
        obtain ⟨j, path, rfl⟩ := List.exists_cons_of_ne_nil hne
        cases v with
        | scalar v => rfl
        | map fields => rfl
        | list items =>
          refine hole_removeItem (fun j rest hj hs => ?_) hne items
          cases hj
          obtain ⟨n, hn⟩ := Option.isSome_iff_exists.1 hs
          have hrest := parted_of_index hn h
          exact ⟨ne_nil_of_parted hrest, ih hrest⟩
    · simp only [hole, get?_remove_of_ne hk]

theorem getElem?_mapM {f : Value → Result Value} {items items' : List Value}
    (h : items.mapM f = .ok items') (i : Nat) :
    items[i]? = none ∧ items'[i]? = none ∨
      ∃ v v', items[i]? = some v ∧ f v = .ok v' ∧ items'[i]? = some v' := by
  have hitems := Run.mapM_eq_ok_iff.1 h
  clear h
  induction hitems generalizing i with
  | nil => exact .inl ⟨rfl, rfl⟩
  | cons hv _ ih =>
    cases i with
    | zero => exact .inr ⟨_, _, rfl, hv, rfl⟩
    | succ i => exact ih i

theorem editItem_ok {change : Fields Value → Result (Fields Value)} {v v' : Value}
    (h : editItem change v = .ok v') :
    (∃ fields fields', v = .map fields ∧ v' = .map fields' ∧ change fields = .ok fields') ∨
      v.map? = none ∧ v' = v := by
  cases v with
  | map fields =>
    obtain ⟨fields', hc, h⟩ := Run.exists_of_map_ok h
    exact .inl ⟨fields, fields', rfl, h.symm, hc⟩
  | _ =>
    cases h
    exact .inr ⟨rfl, rfl⟩

theorem getElem?_editItems {change : Fields Value → Result (Fields Value)}
    {items items' : List Value} (h : items.mapM (editItem change) = .ok items') (i : Nat) :
    (∃ fields fields', items[i]? = some (.map fields) ∧ items'[i]? = some (.map fields') ∧
      change fields = .ok fields') ∨
    (∀ fields, items[i]? ≠ some (.map fields)) ∧ items'[i]? = items[i]? := by
  obtain ⟨hi, hi'⟩ | ⟨v, v', hi, hv, hi'⟩ := getElem?_mapM h i
  · exact .inr ⟨by simp [hi], hi'.trans hi.symm⟩
  · obtain ⟨fields, fields', rfl, rfl, hf⟩ | ⟨hv, rfl⟩ := editItem_ok hv
    · exact .inl ⟨fields, fields', hi, hi', hf⟩
    · refine .inr ⟨fun fields h => ?_, hi'.trans hi.symm⟩
      cases hi.symm.trans h
      cases hv

theorem mapM_error {f : Value → Result Value} {items : List Value} {e : Error}
    (h : items.mapM f = .error e) : ∃ v ∈ items, f v = .error e := by
  induction items with
  | nil =>
    rw [List.mapM_nil] at h
    cases h
  | cons v items ih =>
    rw [List.mapM_cons] at h
    cases hv : f v with
    | error e' =>
      rw [hv] at h
      cases h
      exact ⟨v, List.mem_cons_self, hv⟩
    | ok v' =>
      rw [hv] at h
      cases hi : items.mapM f with
      | error e' =>
        rw [hi] at h
        cases h
        obtain ⟨w, hw, he⟩ := ih hi
        exact ⟨w, List.mem_cons_of_mem v hw, he⟩
      | ok rest =>
        rw [hi] at h
        cases h

theorem editItem_error {change : Fields Value → Result (Fields Value)} {v : Value} {e : Error}
    (h : editItem change v = .error e) : ∃ fields, v = .map fields ∧ change fields = .error e := by
  cases v with
  | map fields => exact ⟨fields, rfl, Run.error_of_map h⟩
  | _ => cases h

theorem edit_error {change : Fields Value → Result (Fields Value)} {data : Fields Value} {e : Error}
    (h : edit change way data = .error e) :
    ∃ holder, (Value.map data).Reaches way holder ∧ change holder = .error e := by
  induction way generalizing data e with
  | nil => exact ⟨data, .here, h⟩
  | cons k way ih =>
    rw [edit] at h
    split at h
    · next fields hd =>
      obtain h | ⟨fields', -, h⟩ := Run.error_of_bind h
      · obtain ⟨holder, hreach, he⟩ := ih h
        exact ⟨holder, .field hd hreach, he⟩
      · cases h
    · next items hd =>
      obtain h | ⟨items', -, h⟩ := Run.error_of_bind h
      · obtain ⟨v, hv, h⟩ := mapM_error h
        obtain ⟨fields, rfl, hfields⟩ := editItem_error h
        obtain ⟨holder, hreach, he⟩ := ih hfields
        exact ⟨holder, .field hd (.item hv hreach), he⟩
      · cases h
    · cases h

theorem edit_cons_ok {change : Fields Value → Result (Fields Value)} {data changed : Fields Value}
    (h : edit change (k :: way) data = .ok changed) :
    (∃ fields fields', data.get? k = some (.map fields) ∧ edit change way fields = .ok fields' ∧
      changed = data.insert k (.map fields')) ∨
    (∃ items items', data.get? k = some (.list items) ∧
      items.mapM (editItem (edit change way)) = .ok items' ∧
      changed = data.insert k (.list items')) ∨
    ((∀ v, data.get? k = some v → v.map? = none ∧ v.list? = none) ∧ changed = data) := by
  rw [edit] at h
  cases hd : data.get? k with
  | none =>
    rw [hd] at h
    cases h
    exact .inr (.inr ⟨by simp, rfl⟩)
  | some v =>
    rw [hd] at h
    cases v with
    | scalar s =>
      cases h
      exact .inr (.inr ⟨by rintro v ⟨⟩; exact ⟨rfl, rfl⟩, rfl⟩)
    | map fields =>
      obtain ⟨fields', hc, h⟩ := Run.exists_of_bind_ok h
      cases h
      exact .inl ⟨fields, fields', rfl, hc, rfl⟩
    | list items =>
      obtain ⟨items', hc, h⟩ := Run.exists_of_bind_ok h
      cases h
      exact .inr (.inl ⟨items, items', rfl, hc, rfl⟩)

def Writes (change : Fields Value → Result (Fields Value)) (written : List String) : Prop :=
  ∀ fields fields', change fields = .ok fields' → ∀ name, name ∉ written →
    Fields.get? fields' name = Fields.get? fields name

section

variable {change : Fields Value → Result (Fields Value)} {written : List String}
  {data changed : Fields Value}

theorem keysApart_cons : keysApart (k :: keys) (k :: keys') = keysApart keys keys' := by
  simp [keysApart]

theorem ne_of_keysApart_single {other : String} (h : keysApart [k] (other :: keys)) : k ≠ other := by
  rintro rfl
  simp [keysApart] at h

theorem keysApart_comm (keys keys' : List String) : keysApart keys keys' = keysApart keys' keys := by
  simp [keysApart, Bool.and_comm]

theorem not_keysApart_self (keys : List String) : keysApart keys keys = false := by
  have : keys.isPrefixOf keys = true := List.isPrefixOf_iff_prefix.2 List.prefix_rfl
  simp [keysApart, this]

theorem get?_edit_of_ne {other : String} (h : edit change (k :: way) data = .ok changed)
    (hk : k ≠ other) : changed.get? other = data.get? other := by
  obtain ⟨_, _, -, -, rfl⟩ | ⟨_, _, -, -, rfl⟩ | ⟨-, rfl⟩ := edit_cons_ok h
  · simp [Fields.get?_insert, hk]
  · simp [Fields.get?_insert, hk]
  · rfl

theorem hole_editItems {items items' : List Value} {i : Nat}
    (h : items.mapM (editItem change) = .ok items')
    (hsame : ∀ fields fields', change fields = .ok fields' →
      hole (.map fields') x name = hole (.map fields) x name) :
    hole (.list items') (.index i :: x) name = hole (.list items) (.index i :: x) name := by
  obtain ⟨fields, fields', hi, hi', hf⟩ | ⟨-, hi'⟩ := getElem?_editItems h i
  · rw [hole_item hi, hole_item hi', hsame fields fields' hf]
  · rw [hole, hole, hi']

theorem hole_edit (hw : Writes change written) (hne : written ≠ [])
    (h : edit change way data = .ok changed) (hl : Leads way' x)
    (ha : ∀ field ∈ written, keysApart (way ++ [field]) (way' ++ [name])) :
    hole (.map changed) x name = hole (.map data) x name := by
  induction way generalizing way' x data changed with
  | nil =>
    have hget : ∀ k rest, way' ++ [name] = k :: rest → changed.get? k = data.get? k := by
      intro k rest hk
      refine hw data changed h k fun hm => ?_
      have := ha k hm
      rw [hk] at this
      exact ne_of_keysApart_single this rfl
    cases hl with
    | nil => simp only [hole, hget name [] rfl]
    | key k hl => simp only [hole, hget k _ rfl]
    | item k i hl => simp only [hole, hget k _ rfl]
  | cons k way ih =>
    cases hl with
    | nil =>
      -- the edit goes on below another key, or what is written would be below this field
      obtain ⟨field, hfield⟩ := List.exists_mem_of_ne_nil _ hne
      have hk := ha field hfield
      rw [keysApart_comm] at hk
      simp only [hole, get?_edit_of_ne h (ne_of_keysApart_single hk).symm]
    | @key way' x other hl =>
      by_cases hk : k = other
      · subst hk
        have ha : ∀ field ∈ written, keysApart (way ++ [field]) (way' ++ [name]) :=
          fun field hf => keysApart_cons ▸ ha field hf
        obtain ⟨fields, fields', hd, hc, rfl⟩ | ⟨items, items', hd, hc, rfl⟩ | ⟨-, rfl⟩ :=
          edit_cons_ok h
        · rw [hole_insert, hole_field hd, ih hc hl ha]
        · rw [hole_insert, hole_field hd, hole_list_of_leads hl, hole_list_of_leads hl]
        · rfl
      · simp only [hole, get?_edit_of_ne h hk]
    | @item way' x other i hl =>
      by_cases hk : k = other
      · subst hk
        have ha : ∀ field ∈ written, keysApart (way ++ [field]) (way' ++ [name]) :=
          fun field hf => keysApart_cons ▸ ha field hf
        obtain ⟨fields, fields', hd, hc, rfl⟩ | ⟨items, items', hd, hc, rfl⟩ | ⟨-, rfl⟩ :=
          edit_cons_ok h
        · rw [hole_insert, hole_field hd, hole_map_index, hole_map_index]
        · rw [hole_insert, hole_field hd, hole_editItems hc fun _ _ hf => ih hf hl ha]
        · rfl
      · simp only [hole, get?_edit_of_ne h hk]

theorem select?_edit (hw : Writes change written) (hne : written ≠ [])
    (h : edit change way data = .ok changed)
    (ha : ∀ field ∈ written, parted path (way ++ [field])) :
    (Value.map changed).select? (path.map .text) = (Value.map data).select? (path.map .text) := by
  obtain ⟨first, hfirst⟩ := List.exists_mem_of_ne_nil _ hne
  obtain ⟨s, path, rfl⟩ := List.exists_cons_of_ne_nil (ne_nil_of_parted (ha first hfirst))
  simp only [select?_text_cons, Value.at?]
  induction way generalizing s path data changed with
  | nil =>
    have hs : s ∉ written := by
      intro hs
      have := parted_of_cons (ha s hs)
      cases path <;> simp [parted] at this
    rw [hw data changed h s hs]
  | cons k way ih =>
    by_cases hk : k = s
    · subst hk
      have hp : ∀ field ∈ written, parted path (way ++ [field]) :=
        fun field hf => parted_of_cons (ha field hf)
      obtain ⟨t, path, rfl⟩ := List.exists_cons_of_ne_nil (ne_nil_of_parted (hp first hfirst))
      obtain ⟨fields, fields', hd, hc, rfl⟩ | ⟨items, items', hd, hc, rfl⟩ | ⟨-, rfl⟩ :=
        edit_cons_ok h
      · simp only [Fields.get?_insert, hd, ↓reduceIte, Option.bind_some, select?_text_cons,
          Value.at?]
        exact ih hc t path hp
      · simp only [Fields.get?_insert, hd, ↓reduceIte, Option.bind_some, select?_text_cons,
          Value.at?]
        cases ht : Text.unsigned? t.toList with
        | none => rfl
        | some n =>
          have hp : ∀ field ∈ written, parted path (way ++ [field]) :=
            fun field hf => parted_of_index ht (ha field hf)
          rw [Option.bind_some, Option.bind_some]
          obtain ⟨fields, fields', hi, hi', hf⟩ | ⟨-, hi'⟩ := getElem?_editItems hc n
          · obtain ⟨u, path, rfl⟩ := List.exists_cons_of_ne_nil (ne_nil_of_parted (hp first hfirst))
            rw [hi, hi', Option.bind_some, Option.bind_some]
            exact ih hf u path hp
          · rw [hi']
      · rfl
    · rw [get?_edit_of_ne h hk]

theorem hole_edit_self (h : edit change way data = .ok changed) (hl : Leads way x)
    (ho : (hole (.map data) x name).isSome) :
    ∃ fields fields', change fields = .ok fields' ∧
      (∀ name, hole (.map data) x name = some (Fields.get? fields name)) ∧
      ∀ name, hole (.map changed) x name = some (Fields.get? fields' name) := by
  induction hl generalizing data changed with
  | nil => exact ⟨data, changed, h, fun _ => rfl, fun _ => rfl⟩
  | @key way x k hl ih =>
    obtain ⟨o, hv⟩ := Option.isSome_iff_exists.1 ho
    obtain ⟨v, hd, hv⟩ := Option.bind_eq_some_iff.1 hv
    obtain ⟨fields, rfl⟩ := map_of_hole hl (Option.isSome_of_eq_some hv)
    obtain ⟨_, fields', hd', hc, rfl⟩ | ⟨_, _, hd', -⟩ | ⟨hnone, -⟩ := edit_cons_ok h
    · cases hd.symm.trans hd'
      simp only [hole_field hd, hole_insert] at ho ⊢
      exact ih hc ho
    · cases hd.symm.trans hd'
    · cases (hnone _ hd).1
  | @item way x k i hl ih =>
    obtain ⟨o, hv⟩ := Option.isSome_iff_exists.1 ho
    obtain ⟨v, hd, hv⟩ := Option.bind_eq_some_iff.1 hv
    obtain ⟨items, rfl⟩ := list_of_hole (Option.isSome_of_eq_some hv)
    obtain ⟨w, hi, hw⟩ := Option.bind_eq_some_iff.1 hv
    obtain ⟨fields, rfl⟩ := map_of_hole hl (Option.isSome_of_eq_some hw)
    obtain ⟨_, _, hd', -⟩ | ⟨_, items', hd', hc, rfl⟩ | ⟨hnone, -⟩ := edit_cons_ok h
    · cases hd.symm.trans hd'
    · cases hd.symm.trans hd'
      obtain ⟨_, fields', hi', hleft, hf⟩ | ⟨hother, -⟩ := getElem?_editItems hc i
      · cases hi.symm.trans hi'
        simp only [hole_field hd, hole_insert, hole_item hi, hole_item hleft] at ho ⊢
        exact ih hf ho
      · exact absurd hi (hother fields)
    · cases (hnone _ hd).2

theorem exists_hole_of_mem_holders {holder : Fields Value} (h : holder ∈ holders way data) :
    ∃ x, Leads way x ∧ ∀ name, hole (.map data) x name = some (holder.get? name) := by
  induction way generalizing data with
  | nil =>
    rw [holders, List.mem_singleton] at h
    subst h
    exact ⟨[], .nil, fun _ => rfl⟩
  | cons k way ih =>
    rw [holders] at h
    split at h
    · next fields hd =>
      obtain ⟨x, hl, hx⟩ := ih h
      exact ⟨.key k :: x, .key k hl, fun name => by simp [hole, hd, hx]⟩
    · next items hd =>
      obtain ⟨fields, hf, hh⟩ := List.mem_flatMap.1 h
      obtain ⟨v, hv, hm⟩ := List.mem_filterMap.1 hf
      obtain ⟨i, hi⟩ := List.getElem?_of_mem hv
      obtain ⟨x, hl, hx⟩ := ih hh
      refine ⟨.key k :: .index i :: x, .item k i hl, fun name => ?_⟩
      cases v with
      | map fields' =>
        cases hm
        simp [hole, hd, hi, hx]
      | _ => cases hm
    · cases h

theorem holders_eq_nil (h : ∀ x, Leads way x → hole (.map data) x name = none) :
    holders way data = [] := by
  refine List.eq_nil_iff_forall_not_mem.2 fun holder hholder => ?_
  obtain ⟨x, hl, ho⟩ := exists_hole_of_mem_holders hholder
  cases (ho name).symm.trans (h x hl)

end

end Migration

end Orchestration
