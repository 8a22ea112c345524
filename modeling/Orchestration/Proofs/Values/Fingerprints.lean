import Orchestration.Proofs.Values.Equivalence
import Orchestration.Value.Fingerprint

namespace Orchestration

namespace Value

open Digest (Bytes)

variable (hash : Bytes → UInt64) {v w : Value}

def entryWord (e : String × Value) : UInt64 :=
  hash (scalarBytes (.text e.1) ++ wordBytes (e.2.fingerprintWith hash))

theorem itemBytes_eq (items : List Value) :
    itemBytes hash items = items.flatMap fun v => wordBytes (v.fingerprintWith hash) := by
  induction items with
  | nil => rfl
  | cons v rest ih => rw [itemBytes, ih, List.flatMap_cons]

theorem fieldsWord_eq (fields : Fields Value) :
    fieldsWord hash fields = (fields.map (entryWord hash)).foldr (· ^^^ ·) 0 := by
  induction fields with
  | nil => rfl
  | cons e rest ih => rw [fieldsWord, ih, List.map_cons, List.foldr_cons, entryWord]

theorem fieldsWord_perm {fields fields' : Fields Value} (h : fields.Perm fields') :
    fieldsWord hash fields = fieldsWord hash fields' := by
  rw [fieldsWord_eq, fieldsWord_eq]
  have hcomm : LeftCommutative (fun a b : UInt64 => a ^^^ b) :=
    ⟨fun a b c => by rw [← UInt64.xor_assoc, UInt64.xor_comm a, UInt64.xor_assoc]⟩
  exact (h.map _).foldr_eq 0

theorem fingerprintWith_sortKeys (v : Value) :
    v.sortKeys.fingerprintWith hash = v.fingerprintWith hash := by
  induction v using induct with
  | scalar s => rw [sortKeys]
  | list items ih =>
    rw [sortKeys, fingerprintWith, fingerprintWith, itemBytes_eq, itemBytes_eq, sortItems_eq,
      List.flatMap_map]
    exact congrArg hash (List.flatMap_congr fun v hv => by rw [ih v hv])
  | map m ih =>
    have hwords : (sortFields m).map (entryWord hash) = m.map (entryWord hash) := by
      rw [sortFields_eq, List.map_map]
      exact List.map_congr_left fun e he => by simp only [Function.comp_apply, entryWord, ih e he]
    rw [sortKeys_map, fingerprintWith, fingerprintWith,
      fieldsWord_perm hash (Fields.mergeSortKeys_perm _), fieldsWord_eq, fieldsWord_eq, hwords]

theorem Alike.fingerprintWith (h : v.Alike w) :
    v.fingerprintWith hash = w.fingerprintWith hash := by
  rw [← fingerprintWith_sortKeys, h, fingerprintWith_sortKeys]

theorem fingerprintWith_eq_of_equal (hv : v.Tidy) (hw : w.Tidy) (h : v.equal w = true)
    (hzeros : v.ZerosAgree w) : v.fingerprintWith hash = w.fingerprintWith hash :=
  (alike_of_equal hv hw h hzeros).fingerprintWith hash

end Value

end Orchestration
