import Orchestration.Value.Basic

/-!
The numbers of JSON texts. A numeral without fraction and exponent is an integer where one fits;
all others are decimals. In data a decimal is made of 64 bits of digits that are scaled with decimals,
so it need not be the nearest one.
-/

namespace Orchestration.Json

/-- The grammar of numbers: no `+`, no leading zeros, and digits in every part that is written. -/
def isNumber (n : Text.Numeral) : Bool :=
  n.sign ≠ some '+' && !n.whole.isEmpty && (n.whole.head? ≠ some '0' || n.whole.length = 1) &&
    n.fraction ≠ some [] && n.exponent ≠ some []

def integer? (n : Text.Numeral) : Option Int64 :=
  if n.isWhole then Text.signed? (n.sign.toList ++ n.whole) else none

def significand (value : Nat) : List Char → Nat × Nat
  | [] => (value, 0)
  | c :: cs =>
    let next := 10 * value + (c.toNat - 48)
    if next < Nat.pow 2 64 then significand next cs else (value, cs.length + 1)

def powerOfTen (n : Nat) : Decimal := .ofScaled false 1 n

/-- Scale a decimal that is not negative by a power of ten; `none` beyond the greatest decimal.
Division goes by at most `10 ^ 308` at a time, and two such steps leave zero. -/
def scale? (d : Decimal) (exponent : Int) : Option Decimal :=
  if d.isZero then some d
  else if 308 < exponent then none
  else if 0 ≤ exponent then (some (d.mul (powerOfTen exponent.toNat))).filter (·.isFinite)
  else if -308 ≤ exponent then some (d.div (powerOfTen (-exponent).toNat))
  else if -616 ≤ exponent then
    some ((d.div (powerOfTen 308)).div (powerOfTen (-exponent - 308).toNat))
  else some (.ofMagnitude false 0)

/-- The decimal of a number in data: the leading digits that fit into 64 bits, rounded and then
multiplied or divided by a rounded power of ten. -/
def scaledDecimal? (n : Text.Numeral) : Option Decimal :=
  let fraction := n.fraction.getD []
  let (whole, skipped) := significand 0 n.whole
  let (digits, left) := significand whole fraction
  let scale := n.scale + skipped - (fraction.length - left : Nat)
  (scale? (.ofScaled false digits 0) scale).map fun d => if n.isNegative then d.neg else d

def dataNumber? (_ : List Char) (n : Text.Numeral) : Option Scalar :=
  match integer? n with
  | some i => if n.isNegative && i = 0 then (scaledDecimal? n).map .decimal else some (.integer i)
  | none => (scaledDecimal? n).map .decimal

end Orchestration.Json
