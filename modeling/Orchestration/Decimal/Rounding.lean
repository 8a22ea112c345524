import Orchestration.Decimal.Basic

namespace Orchestration.Decimal

def roundDiv (num den : Nat) : Nat :=
  let q := num / den
  let r := num % den
  if den < 2 * r || (2 * r == den && q % 2 == 1) then q + 1 else q

/-- The magnitude nearest to `num / den`: the mantissa has at most 53 bits and, above the smallest
exponent, no fewer. -/
def nearestMagnitude (num den : Nat) : Nat :=
  let scaled := num * unit
  let exponent := (scaled / den).log2 - 52
  min infinity (exponent * Nat.pow 2 52 + roundDiv scaled (den * Nat.pow 2 exponent))

def ofRatio (negative : Bool) (num den : Nat) : Decimal :=
  ofMagnitude negative (nearestMagnitude num den)

/-- The decimal nearest to `digits * 10 ^ scale`. Numbers beyond `10 ^ 310` are infinite and
numbers below `10 ^ -330` zero, so no power of ten grows without bound. -/
def ofScaled (negative : Bool) (digits : Nat) (scale : Int) : Decimal :=
  let width : Int := (Nat.toDigits 10 digits).length
  if digits = 0 || width + scale < -330 then ofMagnitude negative 0
  else if 310 < width + scale then ofMagnitude negative infinity
  else if 0 ≤ scale then ofRatio negative (digits * Nat.pow 10 scale.toNat) 1
  else ofRatio negative digits (Nat.pow 10 (-scale).toNat)

def mul (a b : Decimal) : Decimal := ofRatio false (a.units * b.units) (unit * unit)

def div (a b : Decimal) : Decimal := ofRatio false a.units b.units

example : ofScaled false 1 (-1) = ⟨0x3fb999999999999a⟩ := by decide +kernel

end Orchestration.Decimal
