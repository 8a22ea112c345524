import Orchestration.Proofs.Migration.Frame
import Orchestration.Proofs.Run

namespace Orchestration

namespace Fields

variable {α : Type} {f : α → Option α} {key : String}

theorem keys_alter_sublist (m : Fields α) : (m.alter key f).keys.Sublist m.keys := by
  induction m with
  | nil => exact .slnil
  | cons e rest ih =>
    by_cases hk : e.1 = key
    · cases hf : f e.2 <;> simp [alter, hk, hf, keys]
    · simpa [alter, hk, keys] using ih

theorem get?_alter_self {m : Fields α} (h : m.keys.Nodup) :
    (m.alter key f).get? key = (m.get? key).bind f := by
  induction m with
  | nil => rfl
  | cons e rest ih =>
    obtain ⟨hk, hr⟩ := List.nodup_cons.1 h
    by_cases he : e.1 = key
    · have hn : Fields.get? rest key = none := (get?_eq_none_iff rest key).2 (he ▸ hk)
      cases hf : f e.2 <;> simp [alter, get?, he, hf, hn]
    · simpa [alter, get?, he] using ih hr

end Fields

namespace Migration

variable {root key : String} {path : List String} {taken : List (List String)}
  {data changed : Fields Value}

def cutAt (root : String) (v : Option Value) : List String → Option Value
  | [] => v
  | key :: rest => if key = root then v.bind (cut rest) else v

@[simp] theorem cutAt_none : cutAt root none path = none := by
  cases path <;> simp [cutAt]

theorem nodup_remove (h : data.keys.Nodup) : (remove data path).keys.Nodup := by
  cases path with
  | nil => simpa [remove] using h
  | cons key rest =>
    rw [remove_cons]
    exact h.sublist data.keys_alter_sublist

theorem get?_remove (h : data.keys.Nodup) :
    (remove data path).get? root = cutAt root (data.get? root) path := by
  cases path with
  | nil => simp [remove, cutAt]
  | cons key rest =>
    by_cases hk : key = root
    · subst hk
      rw [remove_cons, Fields.get?_alter_self h]
      simp [cutAt]
    · simp [cutAt, hk, get?_remove_of_ne hk]

theorem nodup_removeAll (h : data.keys.Nodup) : (taken.foldl remove data).keys.Nodup := by
  induction taken generalizing data with
  | nil => exact h
  | cons path taken ih => exact ih (nodup_remove h)

theorem get?_removeAll (h : data.keys.Nodup) :
    (taken.foldl remove data).get? root = taken.foldl (cutAt root) (data.get? root) := by
  induction taken generalizing data with
  | nil => rfl
  | cons path taken ih => rw [List.foldl_cons, ih (nodup_remove h), get?_remove h, List.foldl_cons]

theorem cutAt_comm {p q : List String} (h : apart p q) (v : Option Value) :
    cutAt root (cutAt root v p) q = cutAt root (cutAt root v q) p := by
  cases v with
  | none => simp
  | some v =>
    have hn : (Fields.keys [(root, v)]).Nodup := by simp [Fields.keys]
    have hv : Fields.get? [(root, v)] root = some v := by simp [Fields.get?]
    rw [← hv, ← get?_remove hn, ← get?_remove hn, ← get?_remove (nodup_remove hn),
      ← get?_remove (nodup_remove hn), remove_comm h]

structure SameBut (key : String) (data changed : Fields Value) : Prop where
  nodup : changed.keys.Nodup
  get? : ∀ root, root ≠ key → changed.get? root = data.get? root

namespace SameBut

theorem refl (h : data.keys.Nodup) : SameBut key data data := ⟨h, fun _ _ => rfl⟩

theorem insert (h : data.keys.Nodup) (v : Value) : SameBut key data (data.insert key v) :=
  ⟨Fields.nodup_keys_insert h key v, fun root hr => by simp [Fields.get?_insert, hr.symm]⟩

theorem erase (h : data.keys.Nodup) : SameBut key data (data.erase key) :=
  ⟨h.sublist (Fields.keys_erase_sublist data key),
    fun _ hr => Fields.get?_erase_of_ne data hr.symm⟩

theorem trans {first second third : Fields Value} (h : SameBut key first second)
    (h' : SameBut key second third) : SameBut key first third :=
  ⟨h'.nodup, fun root hr => (h'.get? root hr).trans (h.get? root hr)⟩

theorem remove (h : SameBut key data changed) (hd : data.keys.Nodup) (path : List String) :
    SameBut key (Migration.remove data path) (Migration.remove changed path) :=
  ⟨nodup_remove h.nodup, fun root hr => by rw [get?_remove h.nodup, get?_remove hd, h.get? root hr]⟩

theorem removeAll (h : SameBut key data changed) (hd : data.keys.Nodup)
    (paths : List (List String)) :
    SameBut key (paths.foldl Migration.remove data) (paths.foldl Migration.remove changed) :=
  ⟨nodup_removeAll h.nodup,
    fun root hr => by rw [get?_removeAll h.nodup, get?_removeAll hd, h.get? root hr]⟩

end SameBut

theorem edit_cons {m : Type → Type} [Monad m] [LawfulMonad m]
    (key : String) (change : Fields Value → m (Fields Value)) (way : List String)
    (data : Fields Value) : ∃ x : m (Option Value), edit change (key :: way) data =
      (fun v => v.elim data fun v => data.insert key v) <$> x := by
  simp only [edit]
  split
  · next fields _ => exact ⟨(some ∘ Value.map) <$> edit change way fields, by simp⟩
  · next items _ =>
    exact ⟨(some ∘ Value.list) <$> items.mapM (editItem (edit change way)), by simp⟩
  · exact ⟨pure none, by simp⟩

theorem sameBut_elim (h : data.keys.Nodup) (v : Option Value) :
    SameBut key data (v.elim data fun v => data.insert key v) := by
  cases v with
  | none => exact .refl h
  | some v => exact .insert h v

def Source.leave : Source → Fields Value → Fields Value
  | .sibling name _, holder => holder.erase name
  | _, holder => holder

theorem SameBut.leave (h : SameBut key data changed) (hd : data.keys.Nodup) (source : Source) :
    SameBut key (source.leave data) (source.leave changed) := by
  cases source with
  | sibling name pick => exact h.remove hd [name]
  | _ => exact h

namespace Rule

variable {r : Rule} {clientResolve : Bool} {before after : List Query}

theorem edit_sameBut {change : Fields Value → Result (Fields Value)} (hd : data.keys.Nodup)
    (hc : r.way = [] → change data = .ok changed → SameBut r.property data changed)
    (h : edit change r.way data = .ok changed) : SameBut r.property data changed := by
  cases hw : r.way with
  | nil =>
    rw [hw] at h
    exact hc hw h
  | cons key way =>
    obtain ⟨x, hx⟩ := edit_cons key change way data
    rw [hw, hx] at h
    cases x with
    | error e => cases h
    | ok v =>
      cases h
      exact r.property_of_way_cons hw ▸ sameBut_elim hd v

theorem edit_run_sameBut {change : Fields Value → Applying (Fields Value)} (hd : data.keys.Nodup)
    (hc : r.way = [] → (change data).run before = (.ok changed, after) →
      SameBut r.property data changed)
    (h : (edit change r.way data).run before = (.ok changed, after)) :
    SameBut r.property data changed := by
  cases hw : r.way with
  | nil =>
    rw [hw] at h
    exact hc hw h
  | cons key way =>
    obtain ⟨x, hx⟩ := edit_cons key change way data
    rw [hw, hx] at h
    obtain ⟨v, -, rfl⟩ := Run.exists_of_map h
    exact r.property_of_way_cons hw ▸ sameBut_elim hd v

theorem addTo_sameBut {source : Source} (hd : data.keys.Nodup) (hw : r.way = [])
    (h : r.addTo source data data = .ok changed) : SameBut r.property data changed := by
  have hf := r.field_eq_property hw
  unfold addTo at h
  rw [hf] at h
  cases hv : source.value? data data with
  | none =>
    rw [hv] at h
    cases h
    exact .refl hd
  | some v =>
    rw [hv] at h
    have hi : ∀ items, SameBut r.property data
        ((data.erase r.property).insert r.property (.list (items ++ v.list?.getD [v]))) :=
      fun items => (SameBut.erase hd).trans (.insert (SameBut.erase hd).nodup _)
    dsimp only at h
    split at h
    · cases h
      exact hi []
    · cases h
      exact hi []
    · cases h
      exact hi _
    · cases h

theorem resolveIn_sameBut {l : Lookup} (hd : data.keys.Nodup) (hw : r.way = [])
    (h : (r.resolveIn l data).run before = (.ok changed, after)) :
    SameBut r.property data changed := by
  have hf := r.field_eq_property hw
  unfold resolveIn at h
  rw [hf] at h
  split at h
  · cases h
    exact .refl hd
  · cases h
    exact .refl hd
  · obtain ⟨items, mid, -, hc⟩ := Run.exists_of_bind h
    cases hc
    exact .insert hd _
  · obtain ⟨v, mid, -, hc⟩ := Run.exists_of_bind h
    cases hc
    exact .insert hd _

theorem replaceIn_ok {source : Source} {holder : Fields Value}
    (h : r.replaceIn source data holder = .ok changed) :
    (source.value? data holder = none ∧ changed = holder) ∨
      ∃ v, source.value? data holder = some v ∧
        (source.name?.isSome → (holder.get? r.field).filter (!·.isNull) = none) ∧
        changed = source.leave (holder.insert r.field v) := by
  unfold replaceIn at h
  cases hv : source.value? data holder with
  | none =>
    rw [hv] at h
    cases h
    exact .inl ⟨rfl, rfl⟩
  | some v =>
    rw [hv] at h
    refine .inr ⟨v, rfl, ?_⟩
    cases ho : (holder.get? r.field).filter (!·.isNull) with
    | none =>
      rw [ho] at h
      cases h
      cases source <;> exact ⟨fun _ => rfl, rfl⟩
    | some old =>
      rw [ho] at h
      cases source with
      | given w =>
        cases h
        exact ⟨by simp [Source.name?], rfl⟩
      | _ => cases h

theorem replaceIn_sameBut {source : Source} (hd : data.keys.Nodup) (hw : r.way = [])
    (h : r.replaceIn source data data = .ok changed) :
    SameBut r.property
      (if (source.value? data data).isSome then source.leave data else data) changed := by
  obtain ⟨hv, rfl⟩ | ⟨v, hv, -, rfl⟩ := replaceIn_ok h
  · rw [hv]
    exact .refl hd
  · rw [hv, r.field_eq_property hw]
    exact (SameBut.insert hd v).leave hd source

theorem replace_sameBut {source : Source} (hd : data.keys.Nodup)
    (h : edit (r.replaceIn source data) r.way data = .ok changed)
    (hr : r.action = .replace source) :
    SameBut r.property ((r.vacated data).foldl remove data) (r.vacate source data changed) := by
  unfold vacated vacate
  rw [hr]
  cases hw : r.way with
  | nil =>
    rw [hw] at h
    have hs := replaceIn_sameBut hd hw h
    simp only [holders, List.any_cons, List.any_nil, Bool.or_false]
    cases hv : (source.value? data data).isSome with
    | false =>
      rw [hv] at hs
      cases source <;> exact hs
    | true =>
      rw [hv] at hs
      cases source with
      | top path pick => exact SameBut.remove hs hd path
      | _ => exact hs
  | cons key way =>
    have hs := edit_sameBut hd (by simp [hw]) h
    cases source with
    | top path pick =>
      simp only [Source.path?, Option.toList]
      split
      · exact hs.remove hd path
      · exact hs
    | _ => simpa [Source.path?] using hs

theorem apply_sameBut (hd : data.keys.Nodup)
    (h : (r.apply clientResolve data).run before = (.ok changed, after)) :
    SameBut r.property ((r.vacated data).foldl remove data) changed := by
  unfold apply at h
  cases hr : r.action with
  | add source =>
    rw [hr] at h
    have he : edit (r.addTo source data) r.way data = .ok changed := congrArg Prod.fst h
    have hv : r.vacated data = [] := by simp [vacated, hr]
    rw [hv]
    exact edit_sameBut hd (fun hw hc => addTo_sameBut hd hw hc) he
  | replace source =>
    rw [hr] at h
    obtain ⟨changed, mid, he, hc⟩ := Run.exists_of_bind h
    cases hc
    exact replace_sameBut hd (congrArg Prod.fst he) hr
  | resolve l =>
    rw [hr] at h
    have hv : r.vacated data = [] := by simp [vacated, hr]
    rw [hv]
    cases clientResolve with
    | true => exact edit_run_sameBut hd (fun hw hc => resolveIn_sameBut hd hw hc) h
    | false =>
      cases h
      exact .refl hd
  | delete =>
    rw [hr] at h
    have hv : r.vacated data = [] := by simp [vacated, hr]
    rw [hv]
    refine edit_run_sameBut hd (fun hw hc => ?_) h
    cases hc
    rw [r.field_eq_property hw]
    exact .erase hd

theorem mem_vacated (h : path ∈ r.vacated data) : r.takenPath? = some path := by
  unfold vacated at h
  unfold takenPath?
  cases hr : r.action with
  | replace source =>
    simp only [hr] at h
    split at h
    · exact Option.mem_toList.1 h
    · cases h
  | _ => simp [hr] at h

theorem readPath?_of_takenPath? (h : r.takenPath? = some path) : r.readPath? = some path := by
  unfold takenPath? at h
  unfold readPath?
  cases hr : r.action <;> simp_all

structure Clear (r : Rule) (path : List String) : Prop where
  head : path.head? ≠ some r.property
  read : ∀ read ∈ r.readPath?, apart path read

theorem apply_remove_of_clear (clientResolve : Bool) (h : r.Clear path) (data : Fields Value) :
    r.apply clientResolve (remove data path) = (remove · path) <$> r.apply clientResolve data ∧
      r.vacated (remove data path) = r.vacated data := by
  cases path with
  | nil => simp [remove]
  | cons root rest =>
    have hroot : root ≠ r.property := fun he => h.head (by simp [he])
    exact ⟨apply_remove clientResolve hroot h.read, vacated_remove hroot h.read⟩

def applyAll (clientResolve : Bool) : List Rule → Fields Value →
    Applying (Fields Value × List (List String))
  | [], data => return (data, [])
  | r :: rules, data => do
    let changed ← r.apply clientResolve data
    let (last, taken) ← applyAll clientResolve rules changed
    return (last, r.vacated data ++ taken)

theorem foldlM_apply (rules : List Rule) (data : Fields Value) :
    rules.foldlM (fun data r => r.apply clientResolve data) data =
      Prod.fst <$> applyAll clientResolve rules data := by
  induction rules generalizing data with
  | nil => simp [applyAll]
  | cons r rules ih => simp [applyAll, ih]

theorem applyAll_remove {rules : List Rule} (h : ∀ r ∈ rules, r.Clear path) (data : Fields Value) :
    applyAll clientResolve rules (remove data path) =
      (fun (last, taken) => (remove last path, taken)) <$>
        applyAll clientResolve rules data := by
  induction rules generalizing data with
  | nil => simp [applyAll]
  | cons r rules ih =>
    obtain ⟨ha, hv⟩ := apply_remove_of_clear clientResolve (h r (by simp)) data
    simp [applyAll, ha, hv, ih fun r hr => h r (by simp [hr])]

theorem applyAll_removeAll {rules : List Rule} {paths : List (List String)}
    (h : ∀ path ∈ paths, ∀ r ∈ rules, r.Clear path) (data : Fields Value) :
    applyAll clientResolve rules (paths.foldl remove data) =
      (fun (last, taken) => (paths.foldl remove last, taken)) <$>
        applyAll clientResolve rules data := by
  induction paths generalizing data with
  | nil => simp
  | cons path paths ih =>
    rw [List.foldl_cons, ih fun path hp => h path (by simp [hp]), applyAll_remove (h path (by simp))]
    simp

/-- Outside of its property, what a run of rules leaves is what is left when the paths that it notes
are taken out. -/
theorem applyAll_sameBut {rules : List Rule} {last : Fields Value}
    (hk : ∀ r ∈ rules, r.property = key) (hd : data.keys.Nodup)
    (h : (applyAll clientResolve rules data).run before = (.ok (last, taken), after)) :
    SameBut key (taken.foldl remove data) last ∧
      ∀ path ∈ taken, ∃ r ∈ rules, r.takenPath? = some path := by
  induction rules generalizing data before taken with
  | nil =>
    cases h
    exact ⟨.refl hd, by simp⟩
  | cons r rules ih =>
    obtain ⟨changed, mid, hr, h⟩ := Run.exists_of_bind h
    obtain ⟨⟨last, rest⟩, mid', hrest, hlast⟩ := Run.exists_of_bind h
    cases hlast
    have hs := apply_sameBut hd hr
    rw [hk r (by simp)] at hs
    obtain ⟨hlast, ht⟩ := ih (fun r hr => hk r (by simp [hr])) hs.nodup hrest
    refine ⟨?_, ?_⟩
    · rw [List.foldl_append]
      exact (hs.removeAll (nodup_removeAll hd) rest).trans hlast
    · intro path hp
      obtain hp | hp := List.mem_append.1 hp
      · exact ⟨r, by simp, mem_vacated hp⟩
      · obtain ⟨r', hr', hp'⟩ := ht path hp
        exact ⟨r', by simp [hr'], hp'⟩

end Rule

end Migration

end Orchestration
