import Orchestration.Decimal.Basic

/-!
The shortest decimal digits of a number: the fewest that lie nearer to it than to any other
number, and of those the nearest.
-/

namespace Orchestration.Decimal

inductive Tie
  | even
  | up

structure Digits where
  digits : List Char
  point : Int

/-- The bounds, in quarter units, of the numbers that round to a finite positive decimal. Below a
power of two the neighbour is half as far away. -/
def lowQuarters (d : Decimal) : Nat :=
  let step := Nat.pow 2 d.exponent
  if d.mantissa = Nat.pow 2 52 && d.exponent ≠ 0 then 4 * d.units - step else 4 * d.units - 2 * step

def highQuarters (d : Decimal) : Nat := 4 * d.units + 2 * Nat.pow 2 d.exponent

def covers (d : Decimal) (num den : Nat) : Bool :=
  let quarters := 4 * unit * num
  if d.mantissa % 2 = 0 then d.lowQuarters * den ≤ quarters && quarters ≤ d.highQuarters * den
  else d.lowQuarters * den < quarters && quarters < d.highQuarters * den

def log10 (d : Decimal) : Int :=
  if unit ≤ d.units then (Nat.toDigits 10 (d.units / unit)).length - 1
  else
    let width := (Nat.toDigits 10 (unit / d.units)).length
    if unit ≤ d.units * Nat.pow 10 (width - 1) then -(width - 1 : Nat) else -width

/-- The neighbour of `d` on the grid `n * 10 ^ scale` that rounds to `d`, the nearer one if both
do. -/
def onGrid? (tie : Tie) (d : Decimal) (scale : Int) : Option Nat :=
  let up := Nat.pow 10 scale.toNat
  let down := Nat.pow 10 (-scale).toNat
  let num := d.units * down
  let den := unit * up
  let low := num / den
  let isLow := d.covers (low * up) down
  let isHigh := d.covers ((low + 1) * up) down
  let rest := 2 * (num % den)
  let takeHigh := match tie with
    | .even => den < rest || rest == den && low % 2 == 1
    | .up => den ≤ rest
  match isLow, isHigh with
  | true, true => some (if takeHigh then low + 1 else low)
  | true, false => some low
  | false, true => some (low + 1)
  | false, false => none

/-- The shortest digits of a finite positive decimal. Seventeen digits always suffice. -/
def shortest (tie : Tie) (d : Decimal) : Digits :=
  let top := d.log10
  let found := (List.range 17).findSome? fun (n : Nat) =>
    (d.onGrid? tie (top - n)).map fun digits => (digits, top - n)
  match found with
  | some (digits, scale) =>
    let cs := Nat.toDigits 10 digits
    ⟨(cs.reverse.dropWhile (· = '0')).reverse, cs.length + scale⟩
  | none => ⟨[], 0⟩

end Orchestration.Decimal
