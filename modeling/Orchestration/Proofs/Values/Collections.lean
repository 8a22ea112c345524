import Orchestration.Function.Collection
import Orchestration.Proofs.Values.Alike
import Orchestration.Proofs.Values.Results
import Orchestration.Value.Path

namespace Orchestration

namespace Value.Alike

variable {v v' w w' : Value} {items items' path path' : List Value} {m m' : Fields Value}

theorem at? (h : v.Alike v') (hw : w.Alike w') : Option.Rel Alike (v.at? w) (v'.at? w') := by
  cases h.cases with
  | scalar => exact .none
  | list hitems =>
    cases hw.cases with
    | scalar s =>
      cases s with
      | integer i =>
        rw [Value.at?, Value.at?]
        split
        · exact rel_getElem? hitems _
        · exact .none
      | text index =>
        rw [Value.at?, Value.at?]
        cases Text.unsigned? index.toList with
        | none => exact .none
        | some i => exact rel_getElem? hitems i
      | _ => exact .none
    | _ => exact .none
  | map hm =>
    cases hw.cases with
    | scalar s =>
      cases s with
      | text key => exact hm.get? key
      | _ => exact .none
    | _ => exact .none

theorem select? (h : v.Alike v') (hpath : List.Forall₂ Alike path path') :
    Option.Rel Alike (v.select? path) (v'.select? path') := by
  induction hpath generalizing v v' with
  | nil => exact .some h
  | @cons w w' rest rest' hw _ ih =>
    rw [Value.select?, Value.select?, List.foldlM_cons, List.foldlM_cons]
    have hat := h.at? hw
    generalize v.at? w = found at hat
    generalize v'.at? w' = found' at hat
    cases hat with
    | none => exact .none
    | some hv => exact ih hv

end Value.Alike

open Result (Alike)

namespace Collection

variable {function : String} {v v' w w' : Value} {items items' : List Value} {m m' : Fields Value}

theorem decoded_alike (h : v.Alike w) :
    Alike Value.Alike (decoded function v) (decoded function w) := by
  cases h.cases with
  | scalar => exact .refl .refl _
  | list hitems => exact .ok h
  | map hm => exact .ok h

theorem item_alike (h : List.Forall₂ Value.Alike items items') (index : Int) :
    (item items index).Alike (item items' index) := by
  unfold item
  rw [h.length_eq]
  generalize (if index < 0 then (items'.length : Int) + index else index) = place
  dsimp only
  split
  · exact .refl _
  · exact rel_getD (rel_getElem? h _) (.refl _)

theorem index?_eq (h : v.Alike w) : index? v = index? w := by
  cases h.cases <;> rfl

theorem select_alike (hindex : v.Alike v') (h : w.Alike w') :
    Alike Value.Alike (select function v w) (select function v' w') := by
  refine (decoded_alike h).bind fun w w' h => ?_
  cases h.cases with
  | scalar s =>
    cases s with
    | null => exact .ok (.refl _)
    | _ => exact .error
  | list hitems =>
    dsimp only
    rw [index?_eq hindex]
    cases index? v' with
    | none => exact .error
    | some i => exact .ok (item_alike hitems i)
  | map hm =>
    cases hindex.cases with
    | scalar s =>
      cases s with
      | text key => exact .ok (rel_getD (hm.get? key) (.refl _))
      | _ => exact .error
    | _ => exact .error

theorem extend_alike {o o' : Fields Value} (hm : Value.Alike (.map m) (.map m'))
    (ho : Value.Alike (.map o) (.map o')) :
    Value.Alike (.map (m.extend o)) (.map (m'.extend o')) := by
  refine Value.Alike.map_iff.2 fun key => ?_
  have hmkey := Value.Alike.map_iff.1 hm key
  have hokey := Value.Alike.map_iff.1 ho key
  rw [Fields.under_extend, Fields.under_extend]
  generalize m.under key = vs at hmkey
  generalize m'.under key = vs' at hmkey
  generalize o.under key = us at hokey
  generalize o'.under key = us' at hokey
  rw [List.getLast?_eq_getElem?, List.getLast?_eq_getElem?, hokey.length_eq]
  have hlast := rel_getElem? hokey (us'.length - 1)
  generalize us[us'.length - 1]? = last at hlast
  generalize us'[us'.length - 1]? = last' at hlast
  cases hlast with
  | none => exact hmkey
  | some hv =>
    refine .cons hv ?_
    cases hmkey with
    | nil => exact .nil
    | cons _ hrest => exact hrest

theorem merge_alike (hm : Value.Alike (.map m) (.map m')) (h : v.Alike w) :
    Alike (fun m m' => Value.Alike (.map m) (.map m')) (merge m v) (merge m' w) := by
  cases h.cases with
  | scalar s =>
    cases s with
    | null => exact .ok hm
    | _ => exact .error
  | map ho => exact .ok (extend_alike hm ho)
  | _ => exact .error

theorem filter_alike {removed removed' : List Value}
    (hremoved : List.Forall₂ Value.Alike removed removed')
    (h : List.Forall₂ Value.Alike items items') :
    List.Forall₂ Value.Alike (filter removed items) (filter removed' items') := by
  unfold filter
  induction h with
  | nil => exact .nil
  | cons hv _ ih =>
    rw [List.filter_cons, List.filter_cons, Value.Alike.among hremoved hv]
    split
    · exact .cons hv ih
    · exact ih

theorem append_alike (unique : Bool) {found found' : List Value}
    (hfound : List.Forall₂ Value.Alike found found')
    (h : List.Forall₂ Value.Alike items items') :
    List.Forall₂ Value.Alike (append unique found items) (append unique found' items') := by
  unfold append
  induction h generalizing found found' with
  | nil => exact hfound
  | cons hv _ ih =>
    rw [List.foldl_cons, List.foldl_cons, Value.Alike.among hfound hv]
    split
    · exact ih hfound
    · exact ih (List.rel_append hfound (.cons hv .nil))

theorem replacements_alike (kind : String) (h : Value.Alike (.map m) (.map m')) :
    Alike (fun m m' => Value.Alike (.map m) (.map m')) (replacements function kind m)
      (replacements function kind m') := by
  unfold replacements
  have hkind := h.get? kind
  generalize m.get? kind = given at hkind
  generalize m'.get? kind = given' at hkind
  cases hkind with
  | none => exact .ok (.refl _)
  | some hv =>
    cases hv.cases with
    | scalar s =>
      cases s with
      | null => exact .ok (.refl _)
      | _ => exact .error
    | map ho => exact .ok ho
    | _ => exact .error

theorem contains_eq (h : Value.Alike (.map m) (.map m')) (key : String) :
    m.contains key = m'.contains key := by
  have hkey := h.get? key
  unfold Fields.contains
  generalize m.get? key = v at hkey
  generalize m'.get? key = v' at hkey
  cases hkey <;> rfl

theorem renamed_alike {keys keys' : Fields Value} (h : Value.Alike (.map m) (.map m'))
    (hkeys : Value.Alike (.map keys) (.map keys')) (key : String) :
    Alike (· = ·) (renamed m keys key) (renamed m' keys' key) := by
  unfold renamed
  have hkey := hkeys.get? key
  generalize keys.get? key = v at hkey
  generalize keys'.get? key = v' at hkey
  cases hkey with
  | none => exact .ok rfl
  | some hv =>
    cases hv.cases with
    | scalar s =>
      cases s with
      | text name =>
        dsimp only
        rw [contains_eq h name]
        exact .refl (fun _ => rfl) _
      | _ => exact .error
    | _ => exact .error

theorem replaced_alike {values values' : Fields Value}
    (hvalues : Value.Alike (.map values) (.map values')) (h : v.Alike w) :
    (replaced values v).Alike (replaced values' w) := by
  cases h.cases with
  | scalar s =>
    cases s with
    | text s => exact rel_getD (hvalues.get? s) (.refl _)
    | _ => exact .refl _
  | list => exact h
  | map => exact h

def put (output : Fields Value) (e : String × Value) : Result (Fields Value) :=
  if output.contains e.1 then fault (.renamedTwice e.1) else pure (output ++ [e])

theorem foldlM_put (output entries : Fields Value) (houtput : output.keys.Nodup) :
    Alike (· = ·) (entries.foldlM put output)
      (if (output ++ entries).keys.Nodup then pure (output ++ entries)
        else fault (.renamedTwice "")) := by
  induction entries generalizing output with
  | nil =>
    rw [List.append_nil, if_pos houtput]
    exact .ok rfl
  | cons e rest ih =>
    rw [List.foldlM_cons, put]
    split
    · next hcontains =>
      have hkeys : ¬(Fields.keys (output ++ e :: rest)).Nodup := fun hnodup => by
        rw [Fields.keys, List.map_append, List.nodup_append] at hnodup
        exact hnodup.2.2 e.1 ((Fields.contains_iff output e.1).1 hcontains) e.1 (by simp) rfl
      rw [if_neg hkeys]
      exact .error
    · next hcontains =>
      have hname : e.1 ∉ output.keys := mt (Fields.contains_iff output e.1).2 hcontains
      have hinsert := Fields.insert_of_notMem hname e.2
      have ih := ih (output ++ [e]) (hinsert ▸ Fields.nodup_keys_insert houtput e.1 e.2)
      rw [List.append_assoc] at ih
      exact ih

def renames (input keys values : Fields Value) : Result (Fields Value) :=
  input.mapM fun e => (·, replaced values e.2) <$> renamed input keys e.1

theorem rename_eq_foldlM (input keys values : Fields Value) : rename input keys values =
    input.foldlM (fun output e =>
      (·, replaced values e.2) <$> renamed input keys e.1 >>= put output) [] := by
  unfold rename
  congr 1
  funext output e
  dsimp only
  cases renamed input keys e.1 with
  | error e => rfl
  | ok name =>
    show (if output.contains name then _ else pure (output.insert name (replaced values e.2))) =
      put output (name, replaced values e.2)
    unfold put
    split
    · rfl
    · next hcontains =>
      rw [Fields.insert_of_notMem (mt (Fields.contains_iff output name).2 hcontains)]

theorem rename_eq (input keys values : Fields Value) :
    Alike (· = ·) (rename input keys values) (renames input keys values >>= fun entries =>
      if entries.keys.Nodup then pure entries else fault (.renamedTwice "")) := by
  rw [rename_eq_foldlM]
  refine (Alike.foldlM_bind _ put input []).trans (T := (· = ·)) ?_ |>.imp fun _ _ h => ?_
  · exact (Alike.refl (fun _ => rfl) _).bind fun entries _ h => h ▸ foldlM_put [] entries .nil
  · obtain ⟨_, rfl, rfl⟩ := h
    rfl

theorem rename_alike {keys keys' values values' : Fields Value}
    (h : Value.Alike (.map m) (.map m')) (hkeys : Value.Alike (.map keys) (.map keys'))
    (hvalues : Value.Alike (.map values) (.map values')) :
    Alike (fun m m' => Value.Alike (.map m) (.map m')) (rename m keys values)
      (rename m' keys' values') := by
  refine .congr (rename_eq m keys values) (rename_eq m' keys' values') ?_
  obtain ⟨n, hn, hperm⟩ := h.exists_perm
  have hentries : Alike (List.Forall₂ (Fields.Entry Value.Alike)) (renames m keys values)
      (n.mapM fun e => (·, replaced values' e.2) <$> renamed m' keys' e.1) := by
    refine .mapM hn fun e e' he => ?_
    rw [← he.1]
    exact (renamed_alike h hkeys e.1).map fun _ _ hname => ⟨hname, replaced_alike hvalues he.2⟩
  refine (hentries.trans (.mapM_perm hperm)).bind fun entries entries' ⟨mid, hmid, hmid'⟩ => ?_
  have hnodup : (Fields.keys mid).Nodup ↔ (Fields.keys entries').Nodup :=
    (hmid'.map Prod.fst).nodup_iff
  rw [Fields.keys_eq hmid]
  by_cases hkeys : (Fields.keys mid).Nodup
  · rw [if_pos hkeys, if_pos (hnodup.1 hkeys)]
    exact .ok (.of_entries hmid hmid' (Fields.keys_eq hmid ▸ hkeys))
  · rw [if_neg hkeys, if_neg (mt hnodup.2 hkeys)]
    exact .error

end Collection

end Orchestration
