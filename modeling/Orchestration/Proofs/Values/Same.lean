import Orchestration.Proofs.Values.Alike

/-!
Values that are the same but for the order of map entries and the sign of zeros. This is equality of
values, except that it holds of every value and itself, also where there is a NaN in it.
-/

namespace Orchestration

namespace Decimal

def unsigned (d : Decimal) : Decimal := if d.isZero then ⟨0⟩ else d

theorem equal_iff {a b : Decimal} : a.equal b = true ↔
    a.isNaN = false ∧ b.isNaN = false ∧ (a = b ∨ a.isZero = true ∧ b.isZero = true) := by
  have hbits : a.bits = b.bits ↔ a = b := by
    cases a
    cases b
    simp
  simp [equal, hbits, and_assoc]

theorem isNaN_of_isZero {d : Decimal} (h : d.isZero = true) : d.isNaN = false := by
  have hzero : d.magnitude = 0 := of_decide_eq_true h
  simp [isNaN, hzero]

theorem unsigned_of_isZero {d : Decimal} (h : d.isZero = true) : d.unsigned = ⟨0⟩ := if_pos h

theorem isNaN_unsigned (d : Decimal) : d.unsigned.isNaN = d.isNaN := by
  unfold unsigned
  split
  · next h => rw [isNaN_of_isZero h]; rfl
  · rfl

theorem isZero_unsigned (d : Decimal) : d.unsigned.isZero = d.isZero := by
  unfold unsigned
  split
  · next h => rw [h]; rfl
  · rfl

theorem unsigned_eq_of_equal {a b : Decimal} (h : a.equal b = true) : a.unsigned = b.unsigned := by
  obtain ⟨-, -, rfl | ⟨ha, hb⟩⟩ := equal_iff.1 h
  · rfl
  · rw [unsigned_of_isZero ha, unsigned_of_isZero hb]

theorem equal_unsigned (a b : Decimal) : a.unsigned.equal b.unsigned = a.equal b := by
  rw [Bool.eq_iff_iff, equal_iff, isNaN_unsigned, isNaN_unsigned, isZero_unsigned, isZero_unsigned]
  refine ⟨fun ⟨ha, hb, hab⟩ => equal_iff.2 ⟨ha, hb, ?_⟩, fun h => ?_⟩
  · obtain hab | hab := hab
    · by_cases hzero : a.isZero = true
      · exact .inr ⟨hzero, by rw [← isZero_unsigned, ← hab, isZero_unsigned, hzero]⟩
      · have hzero' : ¬b.isZero = true := by rwa [← isZero_unsigned, ← hab, isZero_unsigned]
        exact .inl (by rwa [unsigned, unsigned, if_neg hzero, if_neg hzero'] at hab)
    · exact .inr hab
  · obtain ⟨ha, hb, -⟩ := equal_iff.1 h
    exact ⟨ha, hb, .inl (unsigned_eq_of_equal h)⟩

theorem eq_of_equal {a b : Decimal} (h : a.equal b = true) (hsign : a.isNegative = b.isNegative) :
    a = b := by
  obtain ⟨-, -, rfl | ⟨ha, hb⟩⟩ := equal_iff.1 h
  · rfl
  · have ha : a.bits.toNat % 2 ^ 63 = 0 := of_decide_eq_true ha
    have hb : b.bits.toNat % 2 ^ 63 = 0 := of_decide_eq_true hb
    have hsign : 2 ^ 63 ≤ a.bits.toNat ↔ 2 ^ 63 ≤ b.bits.toNat := decide_eq_decide.1 hsign
    have hbits : a.bits = b.bits := by
      refine UInt64.toNat_inj.1 ?_
      have := a.bits.toNat_lt
      have := b.bits.toNat_lt
      omega
    cases a
    cases b
    exact congrArg mk hbits

end Decimal

namespace Scalar

def unsigned : Scalar → Scalar
  | .decimal d => .decimal d.unsigned
  | s => s

theorem equal_unsigned (a b : Scalar) : a.unsigned.equal b.unsigned = a.equal b := by
  cases a <;> cases b <;> first | rfl | exact Decimal.equal_unsigned _ _

theorem unsigned_eq_of_equal {a b : Scalar} (h : a.equal b = true) : a.unsigned = b.unsigned := by
  cases a <;> cases b <;> first
    | exact congrArg decimal (Decimal.unsigned_eq_of_equal h)
    | exact congrArg unsigned (of_decide_eq_true h)

theorem eq_of_equal {a b : Scalar} (h : a.equal b = true)
    (hsign : ∀ d d', a = .decimal d → b = .decimal d' → d.isNegative = d'.isNegative) : a = b := by
  cases a <;> cases b <;> first
    | exact congrArg decimal (Decimal.eq_of_equal h (hsign _ _ rfl rfl))
    | exact of_decide_eq_true h

end Scalar

namespace Value

mutual

def unsigned : Value → Value
  | .scalar s => .scalar s.unsigned
  | .list items => .list (unsignedItems items)
  | .map fields => .map (unsignedFields fields)

def unsignedItems : List Value → List Value
  | [] => []
  | v :: vs => v.unsigned :: unsignedItems vs

def unsignedFields : List (String × Value) → List (String × Value)
  | [] => []
  | (k, v) :: rest => (k, v.unsigned) :: unsignedFields rest

end

theorem unsignedItems_eq (items : List Value) : unsignedItems items = items.map unsigned := by
  induction items with
  | nil => rfl
  | cons v rest ih => exact congrArg _ ih

theorem unsignedFields_eq (fields : Fields Value) :
    unsignedFields fields = fields.map fun e => (e.1, e.2.unsigned) := by
  induction fields with
  | nil => rfl
  | cons e rest ih => exact congrArg _ ih

mutual

theorem equal_unsigned : ∀ v w : Value, v.unsigned.equal w.unsigned = v.equal w
  | .scalar a, .scalar b => Scalar.equal_unsigned a b
  | .list xs, .list ys => equalItems_unsignedItems xs ys
  | .map xs, .map ys => by
    rw [unsigned, unsigned, equal, equal, within_unsignedFields xs ys, unsignedFields_eq,
      unsignedFields_eq, List.length_map, List.length_map]
  | .scalar _, .list _ | .scalar _, .map _ | .list _, .scalar _
  | .list _, .map _ | .map _, .scalar _ | .map _, .list _ => rfl

theorem equalItems_unsignedItems :
    ∀ xs ys : List Value, equalItems (unsignedItems xs) (unsignedItems ys) = equalItems xs ys
  | [], [] | [], _ :: _ | _ :: _, [] => rfl
  | x :: xs, y :: ys => by
    simp only [unsignedItems, equalItems, equal_unsigned x y, equalItems_unsignedItems xs ys]

theorem within_unsignedFields : ∀ xs ys : List (String × Value),
    within (unsignedFields xs) (unsignedFields ys) = within xs ys
  | [], _ => rfl
  | (k, v) :: rest, ys => by
    rw [unsignedFields, within, within, within_unsignedFields rest ys, unsignedFields_eq,
      Fields.get?_map]
    cases Fields.get? ys k with
    | none => rfl
    | some w => exact congrArg (· && within rest ys) (equal_unsigned v w)

end

namespace Alike

variable {m m' : Fields Value}

mutual

theorem unsigned : ∀ v w : Value, v.Alike w → v.unsigned.Alike w.unsigned
  | .scalar s, w, h => by
    rw [h.eq_scalar]
    exact .refl _
  | .list items, w, h => by
    obtain ⟨items', rfl, hitems⟩ := h.eq_list
    rw [Value.unsigned, Value.unsigned, list_iff, unsignedItems_eq items']
    exact unsignedItems items items' hitems
  | .map m, w, h => by
    obtain ⟨m', rfl, hm⟩ := h.eq_map
    rw [Value.unsigned, Value.unsigned, map_iff]
    intro key
    rw [unsignedFields_eq m', Fields.under_map]
    exact unsignedUnder m key _ (map_iff.1 hm key)

theorem unsignedItems : ∀ items items' : List Value, List.Forall₂ Alike items items' →
    List.Forall₂ Alike (Value.unsignedItems items) (items'.map Value.unsigned)
  | [], _, h => by
    cases h
    exact .nil
  | v :: vs, _, h => by
    cases h with
    | cons hv h => exact .cons (unsigned v _ hv) (unsignedItems vs _ h)

theorem unsignedUnder : ∀ (m : List (String × Value)) (key : String) (vs : List Value),
    List.Forall₂ Alike (Fields.under m key) vs →
      List.Forall₂ Alike (Fields.under (unsignedFields m) key) (vs.map Value.unsigned)
  | [], _, _, h => by
    cases h
    exact .nil
  | (k, v) :: rest, key, vs, h => by
    rw [Fields.under_cons] at h
    rw [unsignedFields, Fields.under_cons]
    by_cases hkey : k = key
    · rw [if_pos hkey] at h ⊢
      cases h with
      | cons hv h => exact .cons (unsigned v _ hv) (unsignedUnder rest key _ h)
    · rw [if_neg hkey] at h ⊢
      exact unsignedUnder rest key vs h

end

end Alike

/-- The same value but for the order of map entries and the sign of zeros. -/
def Same (v w : Value) : Prop := v.unsigned.Alike w.unsigned

namespace Same

variable {v w : Value} {items items' : List Value} {m n m' : Fields Value}

theorem of_alike (h : v.Alike w) : v.Same w := Alike.unsigned v w h

theorem of_scalar {a b : Scalar} (h : a.equal b = true) : Same (.scalar a) (.scalar b) :=
  congrArg (fun s => (Value.scalar s).sortKeys) (Scalar.unsigned_eq_of_equal h)

theorem of_items (h : List.Forall₂ Same items items') : Same (.list items) (.list items') := by
  rw [Same, unsigned, unsigned, Alike.list_iff, unsignedItems_eq, unsignedItems_eq]
  exact List.forall₂_map_left_iff.2 (List.forall₂_map_right_iff.2 h)

theorem of_entries (h : List.Forall₂ (Fields.Entry Same) m n)
    (hperm : n.Perm m') (hkeys : m.keys.Nodup) : Same (.map m) (.map m') := by
  rw [Same, unsigned, unsigned, unsignedFields_eq, unsignedFields_eq]
  have hentries : List.Forall₂ (Fields.Entry Alike) (m.map fun e => (e.1, e.2.unsigned))
      (n.map fun e => (e.1, e.2.unsigned)) :=
    List.forall₂_map_left_iff.2 (List.forall₂_map_right_iff.2 h)
  exact .of_entries hentries (hperm.map _) (by rwa [Fields.keys_map])

end Same

end Value

end Orchestration
