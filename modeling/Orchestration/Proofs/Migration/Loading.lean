import Orchestration.Migration.Tables
import Orchestration.Proofs.Migration.Taken

namespace Orchestration

namespace Fields

variable {α : Type} {f : α → Option α} {key : String}

theorem alter_insert_new {m : Fields α} (h : m.get? key = none) (v : α) :
    (m.insert key v).alter key f = (f v).elim m fun v => m.insert key v := by
  induction m with
  | nil => cases hf : f v <;> simp [insert, alter, hf]
  | cons e rest ih =>
    by_cases hk : e.1 = key
    · simp [get?, hk] at h
    · have hr := ih (by simpa [get?, hk] using h)
      cases hf : f v <;> simp [insert, alter, hk, hr, hf]

end Fields

namespace Migration

variable {value : String → Result (Option Value)} {key : String} {path : List String}
  {data : Fields Value} {tables : Tables} {p : Properties}

def loaded (p : Properties) (tables : Tables) (key : String) : Result (Option Value) :=
  match tables.residue.get? key with
  | some left => .ok left
  | none => p.value key

theorem load_run (p : Properties) (key : String) :
    (load p key).run tables = (loaded p tables key, tables) := by
  have hget : (get : Reading Tables).run tables = (.ok tables, tables) := rfl
  refine (Run.bind_ok hget).trans ?_
  unfold loaded
  cases tables.residue.get? key <;> rfl

section

variable {m : Type → Type} [Monad m] [LawfulMonad m] {values : String → m (Option Value)}

omit [LawfulMonad m] in
theorem gatherOne_of_some {v : Value} (h : data.get? key = some v) :
    gatherOne values data key = pure data := by simp [gatherOne, Fields.contains, h]

theorem gatherOne_of_none (h : data.get? key = none) :
    gatherOne values data key =
      (fun v => v.elim data fun v => data.insert key v) <$> values key := by
  simp only [gatherOne, Fields.contains, h, Option.isSome_none, Bool.false_eq_true, ↓reduceIte]
  rw [← bind_pure_comp]
  refine bind_congr fun v => ?_
  cases v <;> rfl

end

theorem gatherOne_run (p : Properties) (data : Fields Value) (key : String) :
    (gatherOne (load p) data key).run tables = (gatherOne (loaded p tables) data key, tables) := by
  cases hd : data.get? key with
  | some v =>
    rw [gatherOne_of_some hd, gatherOne_of_some hd]
    rfl
  | none =>
    rw [gatherOne_of_none hd, gatherOne_of_none hd, ← bind_pure_comp]
    cases hl : loaded p tables key with
    | error e => exact Run.bind_error ((load_run p key).trans (by rw [hl]))
    | ok v => exact Run.bind_ok ((load_run p key).trans (by rw [hl]))

theorem gather_run (p : Properties) (keys : List String) :
    (gather (load p) keys).run tables = (gather (loaded p tables) keys, tables) := by
  unfold gather
  generalize ([] : Fields Value) = data
  induction keys generalizing data with
  | nil => rfl
  | cons key keys ih =>
    rw [List.foldlM_cons, List.foldlM_cons]
    cases hi : gatherOne (loaded p tables) data key with
    | error e => exact Run.bind_error ((gatherOne_run p data key).trans (by rw [hi]))
    | ok mid => exact (Run.bind_ok ((gatherOne_run p data key).trans (by rw [hi]))).trans (ih mid)

structure Collected (value : String → Result (Option Value)) (data : Fields Value) : Prop where
  nodup : data.keys.Nodup
  value : ∀ {key v}, data.get? key = some v → value key = .ok (some v)

theorem collected_nil : Collected value [] := ⟨List.nodup_nil, by simp⟩

theorem gatherOne_ok {next : Fields Value} (hd : Collected value data)
    (h : gatherOne value data key = .ok next) :
    Collected value next ∧ value key = .ok (next.get? key) ∧
      ∀ other, (data.get? other).isSome → next.get? other = data.get? other := by
  cases hn : data.get? key with
  | some v =>
    rw [gatherOne_of_some hn] at h
    cases h
    exact ⟨hd, by rw [hn, hd.value hn], fun _ _ => rfl⟩
  | none =>
    rw [gatherOne_of_none hn] at h
    cases hv : value key with
    | error e =>
      rw [hv] at h
      cases h
    | ok v =>
      rw [hv] at h
      cases h
      dsimp only
      cases v with
      | none => exact ⟨hd, by rw [Option.elim_none, hn], fun _ _ => rfl⟩
      | some v =>
        refine ⟨⟨Fields.nodup_keys_insert hd.nodup key v, fun {other w} hw => ?_⟩, ?_, ?_⟩
        · rw [Option.elim_some, Fields.get?_insert] at hw
          split at hw
          · subst_vars
            rw [hv, hw]
          · exact hd.value hw
        · simp [Fields.get?_insert]
        · intro other ho
          have hne : key ≠ other := by
            rintro rfl
            simp [hn] at ho
          simp [Fields.get?_insert, hne]

theorem foldlM_gatherOne_ok {keys : List String} {last : Fields Value} (hd : Collected value data)
    (h : keys.foldlM (gatherOne value) data = .ok last) :
    Collected value last ∧ (∀ key ∈ keys, value key = .ok (last.get? key)) ∧
      ∀ key, (data.get? key).isSome → last.get? key = data.get? key := by
  induction keys generalizing data with
  | nil =>
    cases h
    exact ⟨hd, by simp, fun _ _ => rfl⟩
  | cons key keys ih =>
    rw [List.foldlM_cons] at h
    obtain ⟨next, hn, hrest⟩ := Run.exists_of_bind_ok h
    obtain ⟨hnext, hkey, hother⟩ := gatherOne_ok hd hn
    obtain ⟨hlast, hkeys, hext⟩ := ih hnext hrest
    refine ⟨hlast, fun other ho => ?_, fun other ho => ?_⟩
    · obtain rfl | ho := List.mem_cons.1 ho
      · cases hl : last.get? other with
        | some v => exact hlast.value hl
        | none =>
          cases hv : next.get? other with
          | none => rw [hkey, hv]
          | some v => simp [hext other (by simp [hv]), hv] at hl
      · exact hkeys other ho
    · rw [hext other (by rwa [hother other ho]), hother other ho]

theorem gather_ok {keys : List String} (h : gather value keys = .ok data) :
    data.keys.Nodup ∧ ∀ key ∈ keys, value key = .ok (data.get? key) := by
  obtain ⟨hd, hk, -⟩ := foldlM_gatherOne_ok collected_nil h
  exact ⟨hd.nodup, hk⟩

theorem gather_error {keys : List String} {e : Error} (h : gather value keys = .error e) :
    ∃ key, value key = .error e := by
  unfold gather at h
  generalize ([] : Fields Value) = data at h
  induction keys generalizing data with
  | nil => cases h
  | cons key keys ih =>
    rw [List.foldlM_cons] at h
    cases hn : gatherOne value data key with
    | ok next =>
      rw [hn] at h
      exact ih next h
    | error e' =>
      rw [hn] at h
      cases h
      cases hd : Fields.get? data key with
      | some v =>
        rw [gatherOne_of_some hd] at hn
        cases hn
      | none =>
        rw [gatherOne_of_none hd] at hn
        cases hv : value key with
        | error e' =>
          rw [hv] at hn
          cases hn
          exact ⟨key, hv⟩
        | ok v =>
          rw [hv] at hn
          cases hn

theorem elim_remove (h : data.get? key = none) (v : Option Value) :
    ((cutAt key v path).elim (remove data path) fun v => (remove data path).insert key v) =
      remove (v.elim data fun v => data.insert key v) path := by
  cases v with
  | none => rw [cutAt_none, Option.elim_none, Option.elim_none]
  | some v =>
    cases path with
    | nil => rfl
    | cons root rest =>
      by_cases hk : root = key
      · subst hk
        have hr : remove data (root :: rest) = data := by
          rw [remove_cons, Fields.alter_eq_self (by simp [h])]
        simp only [cutAt, ↓reduceIte, Option.bind_some, Option.elim_some]
        rw [hr, remove_cons, Fields.alter_insert_new h]
      · simp [cutAt, hk, remove_insert hk]

theorem gatherOne_remove (hd : Collected value data) (key : String) :
    gatherOne (fun key => (cutAt key · path) <$> value key) (remove data path) key =
      (remove · path) <$> gatherOne value data key := by
  have hg : (remove data path).get? key = cutAt key (data.get? key) path := get?_remove hd.nodup
  cases hv : data.get? key with
  | some v =>
    rw [gatherOne_of_some hv, map_pure]
    cases hr : (remove data path).get? key with
    | some w => rw [gatherOne_of_some hr]
    | none =>
      rw [hv, hr] at hg
      rw [gatherOne_of_none hr, hd.value hv]
      change Except.ok ((cutAt key (some v) path).elim _ _) = _
      rw [← hg, Option.elim_none]
      rfl
  | none =>
    rw [hv, cutAt_none] at hg
    rw [gatherOne_of_none hv, gatherOne_of_none hg, Functor.map_map, Functor.map_map]
    congr 1
    funext v
    exact elim_remove hv v

theorem foldlM_gatherOne_remove (hd : Collected value data) (path keys : List String) :
    keys.foldlM (gatherOne fun key => (cutAt key · path) <$> value key) (remove data path) =
      (remove · path) <$> keys.foldlM (gatherOne value) data := by
  induction keys generalizing data with
  | nil => rfl
  | cons key keys ih =>
    rw [List.foldlM_cons, List.foldlM_cons, gatherOne_remove hd]
    cases hn : gatherOne value data key with
    | error e => rfl
    | ok next => exact ih (gatherOne_ok hd hn).1

def cutAll (taken : List (List String)) (value : String → Result (Option Value)) (key : String) :
    Result (Option Value) := (fun v => taken.foldl (cutAt key) v) <$> value key

@[simp] theorem cutAll_nil (value : String → Result (Option Value)) : cutAll [] value = value := by
  funext key
  exact id_map (value key)

theorem cutAll_append (first second : List (List String)) (value : String → Result (Option Value)) :
    cutAll (first ++ second) value = cutAll second (cutAll first value) := by
  funext key
  simp [cutAll, List.foldl_append]

theorem gather_cutAll (taken : List (List String)) (value : String → Result (Option Value))
    (keys : List String) :
    gather (cutAll taken value) keys =
      (fun data => taken.foldl remove data) <$> gather value keys := by
  induction taken generalizing value with
  | nil => simp
  | cons path taken ih =>
    have hnil : remove [] path = [] := by
      cases path with
      | nil => rfl
      | cons key rest => rw [remove_cons, Fields.alter]
    have hone : gather (cutAll [path] value) keys = (remove · path) <$> gather value keys := by
      unfold gather
      rw [← foldlM_gatherOne_remove collected_nil, hnil]
      rfl
    rw [← List.singleton_append, cutAll_append, ih, hone]
    simp

end Migration

end Orchestration
