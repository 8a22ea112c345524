import Orchestration.Decimal.Rounding
import Orchestration.Decimal.Shortest
import Orchestration.Text.Numeral

namespace Orchestration.Decimal

structure Style where
  tie : Tie
  /-- The exponents of `d.ddd * 10 ^ e` that are written without an exponent; all if there are none. -/
  positional : Option (Int × Int)
  pointed : Bool

/-- JSON documents: `0.00001`, `100.0`, `1e-6`, `1.5e+16`. -/
def Style.json : Style := ⟨.even, some (-5, 15), true⟩

/-- Texts made from scalars: `1`, `0.00000015`, `100000000000000000000`. -/
def Style.plain : Style := ⟨.up, none, false⟩

def Style.isPositional (style : Style) (exponent : Int) : Bool :=
  match style.positional with
  | some (least, greatest) => least ≤ exponent && exponent ≤ greatest
  | none => true

def zeros (n : Int) : List Char := List.replicate n.toNat '0'

def Digits.positional (pointed : Bool) (n : Digits) : List Char :=
  let whole := if n.point ≤ 0 then ['0'] else n.digits.take n.point.toNat ++ zeros (n.point - n.digits.length)
  let fraction := zeros (-n.point) ++ n.digits.drop n.point.toNat
  if n.point < n.digits.length then whole ++ '.' :: fraction
  else if pointed then whole ++ ['.', '0'] else whole

def Digits.scientific (n : Digits) : List Char :=
  let mantissa := match n.digits with
    | first :: second :: rest => first :: '.' :: second :: rest
    | digits => digits
  let exponent := n.point - 1
  mantissa ++ ['e', if exponent < 0 then '-' else '+'] ++ Nat.toDigits 10 exponent.natAbs

def write (style : Style) (d : Decimal) : List Char :=
  let digits := if d.isZero then ⟨['0'], 1⟩ else d.shortest style.tie
  let body := if style.isPositional (digits.point - 1) then digits.positional style.pointed else digits.scientific
  if d.isNegative then '-' :: body else body

def plain (d : Decimal) : List Char :=
  if d.isNaN then "NaN".toList
  else if d.isInfinite then (if d.isNegative then "-inf" else "inf").toList
  else d.write .plain

def ofNumeral (n : Text.Numeral) : Decimal :=
  let fraction := n.fraction.getD []
  ofScaled n.isNegative (Nat.ofDigitChars 10 (n.whole ++ fraction) 0) (n.scale - fraction.length)

def ofName? (s : List Char) : Option Decimal :=
  let (sign, name) := Text.Numeral.takeSign s
  match String.ofList (name.map Char.toLower) with
  | "inf" | "infinity" => some (ofMagnitude (sign = some '-') infinity)
  | "nan" => some (nan (sign = some '-'))
  | _ => none

/-- Read a decimal from a text that is given as one: digits may lack on one side of the point, and
infinity and NaN have names. -/
def parse? (s : List Char) : Option Decimal :=
  let numeral := (Text.Numeral.split? s).filter fun n =>
    !(n.whole ++ n.fraction.getD []).isEmpty && n.exponent ≠ some []
  (numeral.map ofNumeral).or (ofName? s)

end Orchestration.Decimal
