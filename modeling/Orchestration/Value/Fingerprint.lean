import Orchestration.Digest.SipHash
import Orchestration.Value.Basic

/-!
Fingerprints of values, built from any hash of byte strings. The entries of a map are combined
without regard to their order, the items of a list in their order.
-/

namespace Orchestration.Value

open Digest (Bytes)

/-- The bytes of a scalar that are hashed. Texts are closed by a byte that no text contains. -/
def scalarBytes : Scalar → Bytes
  | .null => [0]
  | .bool b => [if b then 1 else 0]
  | .integer i => Digest.toLittleEndian 8 i.toUInt64.toNat
  | .decimal d => Digest.toLittleEndian 8 d.bits.toNat
  | .text s => Digest.ofText s ++ [0xff]

def wordBytes (w : UInt64) : Bytes := Digest.toLittleEndian 8 w.toNat

section

variable (hash : Bytes → UInt64)

mutual

def fingerprintWith : Value → UInt64
  | .scalar s => hash (scalarBytes s)
  | .list items => hash (itemBytes items)
  | .map fields => hash (wordBytes (fieldsWord fields))

def itemBytes : List Value → Bytes
  | [] => []
  | v :: vs => wordBytes v.fingerprintWith ++ itemBytes vs

def fieldsWord : List (String × Value) → UInt64
  | [] => 0
  | (k, v) :: rest =>
    hash (scalarBytes (.text k) ++ wordBytes v.fingerprintWith) ^^^ fieldsWord rest

end

end

def fingerprint : Value → UInt64 := fingerprintWith Digest.SipHash.hash

end Orchestration.Value
