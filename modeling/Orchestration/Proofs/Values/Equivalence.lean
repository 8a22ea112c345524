import Orchestration.Proofs.Values.Places
import Orchestration.Proofs.Values.Same

namespace Orchestration

namespace Value

variable {u v w : Value} {items items' : List Value} {m m' : Fields Value} {s s' : Scalar}
  {d d' : Decimal} {place : Breadcrumb}

@[elab_as_elim]
theorem induct {P : Value → Prop} (scalar : ∀ s, P (.scalar s))
    (list : ∀ items : List Value, (∀ v ∈ items, P v) → P (.list items))
    (map : ∀ fields : Fields Value, (∀ e ∈ fields, P e.2) → P (.map fields)) (v : Value) : P v :=
  @Value.rec P (fun items => ∀ v ∈ items, P v) (fun fields => ∀ e ∈ fields, P e.2)
    (fun e => P e.2) scalar list map nofun (fun _ _ hv h => List.forall_mem_cons.2 ⟨hv, h⟩) nofun
    (fun _ _ he h => List.forall_mem_cons.2 ⟨he, h⟩) (fun _ _ h => h) v

def NaNFree (v : Value) : Prop :=
  ∀ place d, v.follow? place = some (.decimal d) → d.isNaN = false

/-- Where two values have zeros at the same place, these have one sign. -/
def ZerosAgree (v w : Value) : Prop :=
  ∀ place d d', v.follow? place = some (.decimal d) → w.follow? place = some (.decimal d') →
    d.isZero = true → d'.isZero = true → d.isNegative = d'.isNegative

theorem follow?_scalar (h : (scalar s).follow? place = some v) : v = .scalar s := by
  cases place with
  | nil => exact (Option.some.inj h).symm
  | cons segment rest =>
    rw [follow?_scalar_of_ne (List.cons_ne_nil segment rest)] at h
    cases h

theorem nanFree_scalar_iff : (scalar s).NaNFree ↔ s.equal s = true := by
  constructor
  · intro h
    cases s with
    | decimal d => exact Decimal.equal_self_iff.2 (h [] d rfl)
    | _ => simp [Scalar.equal]
  · rintro h place d hd
    obtain rfl : s = .decimal d := (scalar.inj (follow?_scalar hd)).symm
    exact Decimal.equal_self_iff.1 h

theorem nanFree_list_iff : (list items).NaNFree ↔ ∀ v ∈ items, v.NaNFree := by
  constructor
  · intro h v hv place d hd
    obtain ⟨i, hi⟩ := List.getElem?_of_mem hv
    exact h (.index i :: place) d ((follow?_item hi).trans hd)
  · intro h place d hd
    match place with
    | [] => cases hd
    | .key _ :: _ => cases hd
    | .index i :: place =>
      obtain ⟨v, hv, hd⟩ := Option.bind_eq_some_iff.1 hd
      exact h v (List.mem_of_getElem? hv) place d hd

theorem nanFree_map_iff (hkeys : m.keys.Nodup) : (map m).NaNFree ↔ ∀ e ∈ m, e.2.NaNFree := by
  constructor
  · intro h e he place d hd
    exact h (.key e.1 :: place) d ((follow?_field (Fields.get?_of_mem hkeys he)).trans hd)
  · intro h place d hd
    match place with
    | [] => cases hd
    | .index _ :: _ => cases hd
    | .key key :: place =>
      obtain ⟨v, hv, hd⟩ := Option.bind_eq_some_iff.1 hd
      exact h (key, v) (Fields.mem_of_get? hv) place d hd

theorem ZerosAgree.item (h : (list items).ZerosAgree (list items')) {i : Nat}
    (hv : items[i]? = some v) (hw : items'[i]? = some w) : v.ZerosAgree w := fun place d d' hd hd' =>
  h (.index i :: place) d d' ((follow?_item hv).trans hd) ((follow?_item hw).trans hd')

theorem ZerosAgree.field (h : (map m).ZerosAgree (map m')) {key : String}
    (hv : m.get? key = some v) (hw : m'.get? key = some w) : v.ZerosAgree w :=
  fun place d d' hd hd' =>
    h (.key key :: place) d d' ((follow?_field hv).trans hd) ((follow?_field hw).trans hd')

/-! Equality, part by part. -/

theorem equalItems_iff :
    equalItems items items' = true ↔ List.Forall₂ (fun v w => v.equal w = true) items items' := by
  induction items generalizing items' with
  | nil => cases items' <;> simp [equalItems]
  | cons v vs ih => cases items' <;> simp [equalItems, ih]

theorem within_iff : within m m' = true ↔
    ∀ e ∈ m, ∃ v, m'.get? e.1 = some v ∧ e.2.equal v = true := by
  rw [within_eq, List.all_eq_true]
  refine forall₂_congr fun e _ => ?_
  cases m'.get? e.1 <;> simp

/-- Maps are equal if and only if they have equal values under every key. Since no map has a key
twice, it is enough that they are of one length and one is within the other. -/
theorem equal_map_iff (hkeys : m.keys.Nodup) (hkeys' : m'.keys.Nodup) :
    (map m).equal (map m') = true ↔
      ∀ key, Option.Rel (fun v w => v.equal w = true) (m.get? key) (m'.get? key) := by
  rw [equal, Bool.and_eq_true, beq_iff_eq, within_iff]
  constructor
  · rintro ⟨hlength, hwithin⟩ key
    have hsubset : m.keys ⊆ m'.keys := by
      intro key hkey
      obtain ⟨e, he, rfl⟩ := List.mem_map.1 hkey
      obtain ⟨v, hv, -⟩ := hwithin e he
      exact (Fields.contains_iff m' e.1).1 (Option.isSome_iff_exists.2 ⟨v, hv⟩)
    have hperm : m.keys.Perm m'.keys := by
      refine (List.subperm_of_subset hkeys hsubset).perm_of_length_le ?_
      simp [Fields.keys, hlength]
    cases hv : m.get? key with
    | none =>
      have hnone : key ∉ m'.keys := fun hkey =>
        (Fields.get?_eq_none_iff m key).1 hv (hperm.mem_iff.2 hkey)
      rw [(Fields.get?_eq_none_iff m' key).2 hnone]
      exact .none
    | some v =>
      obtain ⟨w, hw, hequal⟩ := hwithin _ (Fields.mem_of_get? hv)
      rw [hw]
      exact .some hequal
  · intro h
    have hperm : m.keys.Perm m'.keys := Fields.perm_keys_of_rel hkeys hkeys' h
    refine ⟨by simpa [Fields.keys] using hperm.length_eq, fun e he => ?_⟩
    have hkey := h e.1
    rw [Fields.get?_of_mem hkeys he] at hkey
    generalize hfound : m'.get? e.1 = found at hkey
    cases hkey with
    | some hequal => exact ⟨_, rfl, hequal⟩

theorem eq_list_of_equal (h : (list items).equal w = true) :
    ∃ items', w = .list items' ∧ List.Forall₂ (fun v w => v.equal w = true) items items' := by
  cases w with
  | list items' => exact ⟨items', rfl, equalItems_iff.1 h⟩
  | _ => cases h

theorem eq_map_of_equal (h : (map m).equal w = true) : ∃ m' : Fields Value, w = .map m' := by
  cases w with
  | map m' => exact ⟨m', rfl⟩
  | _ => cases h

theorem equal_self_iff (hv : v.Tidy) : v.equal v = true ↔ v.NaNFree := by
  induction v using induct with
  | scalar s => exact nanFree_scalar_iff.symm
  | list items ih =>
    rw [nanFree_list_iff, equal, equalItems_iff, List.forall₂_same]
    exact forall₂_congr fun v hmem => ih v hmem (hv.item hmem)
  | map m ih =>
    have hentries := (tidy_map_iff.1 hv).2
    rw [nanFree_map_iff hv.nodup, equal, beq_self_eq_true, Bool.true_and, within_iff]
    refine forall₂_congr fun e he => ?_
    rw [← ih e he (hentries e he), Fields.get?_of_mem hv.nodup he]
    simp

theorem eq_of_equal_scalar (h : s.equal s' = true)
    (hzeros : (scalar s).ZerosAgree (scalar s')) : s = s' := by
  refine Scalar.eq_of_equal h fun d d' hd hd' => ?_
  subst hd hd'
  obtain ⟨-, -, rfl | ⟨hzero, hzero'⟩⟩ := Decimal.equal_iff.1 h
  · rfl
  · exact hzeros [] d d' rfl rfl hzero hzero'

theorem alike_of_equal (hv : v.Tidy) (hw : w.Tidy) (h : v.equal w = true)
    (hzeros : v.ZerosAgree w) : v.Alike w := by
  induction v using induct generalizing w with
  | scalar s =>
    cases w with
    | scalar s' =>
      rw [eq_of_equal_scalar h hzeros]
      exact .refl _
    | _ => cases h
  | list items ih =>
    obtain ⟨items', rfl, hitems⟩ := eq_list_of_equal h
    obtain ⟨hlength, hitems⟩ := List.forall₂_iff_get.1 hitems
    refine Alike.list_iff.2 (List.forall₂_iff_get.2 ⟨hlength, fun i hi hi' => ?_⟩)
    have hmem := List.get_mem items ⟨i, hi⟩
    exact ih _ hmem (hv.item hmem) (hw.item (List.get_mem ..)) (hitems i hi hi')
      (hzeros.item (List.getElem?_eq_getElem hi) (List.getElem?_eq_getElem hi'))
  | map m ih =>
    obtain ⟨m', rfl⟩ := eq_map_of_equal h
    refine Alike.map_iff.2 fun key => ?_
    rw [Fields.under_of_nodup hv.nodup, Fields.under_of_nodup hw.nodup]
    have hkey := (equal_map_iff hv.nodup hw.nodup).1 h key
    generalize hfound : m.get? key = found at hkey
    generalize hfound' : m'.get? key = found' at hkey
    cases hkey with
    | none => exact .nil
    | some hequal =>
      refine .cons (ih _ (Fields.mem_of_get? hfound) (hv.get? hfound) (hw.get? hfound') hequal
        (hzeros.field hfound hfound')) .nil

/-! Without the signs of zeros. -/

theorem tidy_unsigned (hv : v.Tidy) : v.unsigned.Tidy := by
  induction v using induct with
  | scalar s => exact tidy_scalar _
  | list items ih =>
    rw [unsigned, unsignedItems_eq, tidy_list_iff]
    exact List.forall_mem_map.2 fun v hmem => ih v hmem (hv.item hmem)
  | map m ih =>
    rw [unsigned, unsignedFields_eq, tidy_map_iff, Fields.keys_map]
    exact ⟨hv.nodup, List.forall_mem_map.2 fun e he => ih e he ((tidy_map_iff.1 hv).2 e he)⟩

theorem follow?_unsigned (v : Value) (place : Breadcrumb) :
    v.unsigned.follow? place = (v.follow? place).map unsigned := by
  induction place generalizing v with
  | nil => simp
  | cons segment place ih =>
    cases v with
    | scalar s => cases segment <;> rfl
    | list items =>
      cases segment with
      | key name => rfl
      | index i =>
        rw [unsigned, unsignedItems_eq, follow?, follow?, List.getElem?_map]
        cases items[i]? with
        | none => rfl
        | some v => exact ih v
    | map m =>
      cases segment with
      | key name =>
        rw [unsigned, unsignedFields_eq, follow?, follow?, Fields.get?_map]
        cases Fields.get? m name with
        | none => rfl
        | some v => exact ih v
      | index i => rfl

theorem zerosAgree_unsigned (v w : Value) : v.unsigned.ZerosAgree w.unsigned := by
  have hzero {v : Value} {place : Breadcrumb} {d : Decimal}
      (hd : v.unsigned.follow? place = some (.decimal d)) (hzero : d.isZero = true) :
      d = ⟨0⟩ := by
    rw [follow?_unsigned] at hd
    obtain ⟨u, -, hu⟩ := Option.map_eq_some_iff.1 hd
    cases u with
    | scalar s =>
      cases s with
      | decimal d' =>
        obtain rfl : d'.unsigned = d := by simpa [unsigned, Scalar.unsigned] using hu
        rw [Decimal.isZero_unsigned] at hzero
        exact Decimal.unsigned_of_isZero hzero
      | _ => simp [unsigned, Scalar.unsigned] at hu
    | _ => simp [unsigned] at hu
  intro place d d' hd hd' hz hz'
  rw [hzero hd hz, hzero hd' hz']

theorem same_of_equal (hv : v.Tidy) (hw : w.Tidy) (h : v.equal w = true) : v.Same w :=
  alike_of_equal (tidy_unsigned hv) (tidy_unsigned hw) ((equal_unsigned v w).trans h)
    (zerosAgree_unsigned v w)

theorem Same.equal_congr {v' w' : Value} (hv : v.Same v') (hw : w.Same w') :
    v.equal w = v'.equal w' := by
  rw [← equal_unsigned, ← equal_unsigned v', Alike.equal hv hw]

theorem equal_symm (hv : v.Tidy) (hw : w.Tidy) (h : v.equal w = true) : w.equal v = true := by
  have hsame := same_of_equal hv hw h
  rw [Same.equal_congr hsame.symm hsame]
  exact h

theorem equal_trans (hu : u.Tidy) (hv : v.Tidy) (h : u.equal v = true)
    (h' : v.equal w = true) : u.equal w = true := by
  rw [(same_of_equal hu hv h).equal_congr (Same.of_alike (.refl w))]
  exact h'

end Value

end Orchestration
