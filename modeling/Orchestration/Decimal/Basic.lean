/-!
Decimals: binary64 numbers held as their 64 bits. A finite decimal stands for
`± mantissa * 2 ^ exponent / 2 ^ 1074`.
-/

namespace Orchestration

structure Decimal where
  bits : UInt64
  deriving DecidableEq

namespace Decimal

/-- The number of units of `2 ^ -1074` in a unit. -/
def unit : Nat := Nat.pow 2 1074

def infinity : Nat := 0x7ff * Nat.pow 2 52

def isNegative (d : Decimal) : Bool := Nat.pow 2 63 ≤ d.bits.toNat

def magnitude (d : Decimal) : Nat := d.bits.toNat % Nat.pow 2 63

def ofMagnitude (negative : Bool) (m : Nat) : Decimal :=
  ⟨.ofNat (if negative then Nat.pow 2 63 + m else m)⟩

/-- The NaN that is written by name. It has a sign, though it is not written. -/
def nan (negative : Bool) : Decimal := ofMagnitude negative (infinity + Nat.pow 2 51)

def isNaN (d : Decimal) : Bool := infinity < d.magnitude

def isInfinite (d : Decimal) : Bool := d.magnitude = infinity

def isFinite (d : Decimal) : Bool := d.magnitude < infinity

def isZero (d : Decimal) : Bool := d.magnitude = 0

def neg (d : Decimal) : Decimal := ofMagnitude (!d.isNegative) d.magnitude

def mantissa (d : Decimal) : Nat :=
  if d.magnitude < Nat.pow 2 52 then d.magnitude
  else d.magnitude % Nat.pow 2 52 + Nat.pow 2 52

def exponent (d : Decimal) : Nat := d.magnitude / Nat.pow 2 52 - 1

def units (d : Decimal) : Nat := d.mantissa * Nat.pow 2 d.exponent

/-- Equality of numbers: the two zeros are equal, and no NaN equals anything. -/
def equal (a b : Decimal) : Bool :=
  !a.isNaN && !b.isNaN && (a.bits == b.bits || a.isZero && b.isZero)

theorem equal_comm (a b : Decimal) : a.equal b = b.equal a := by
  simp only [equal, Bool.and_comm a.isZero, BEq.comm (a := a.bits), Bool.and_comm (!a.isNaN)]

theorem equal_self_iff {a : Decimal} : a.equal a = true ↔ a.isNaN = false := by simp [equal]

end Decimal

end Orchestration
