namespace Orchestration.Text

def natural? (s : List Char) : Option Nat :=
  if !s.isEmpty && s.all Char.isDigit then some (Nat.ofDigitChars 10 s 0) else none

/-- A whole number below 2 ^ 64, with at most one `+` in front. -/
def unsigned? : List Char → Option Nat
  | '+' :: s => (natural? s).filter (· < Nat.pow 2 64)
  | s => (natural? s).filter (· < Nat.pow 2 64)

/-- A whole number from -2 ^ 63 to 2 ^ 63 - 1, with at most one sign in front. -/
def signed? : List Char → Option Int64
  | '+' :: s => ((natural? s).filter (· < Nat.pow 2 63)).map Int64.ofNat
  | '-' :: s => ((natural? s).filter (· ≤ Nat.pow 2 63)).map fun n => Int64.ofInt (-n)
  | s => ((natural? s).filter (· < Nat.pow 2 63)).map Int64.ofNat

def ofInt (i : Int) : List Char :=
  if i < 0 then '-' :: Nat.toDigits 10 i.natAbs else Nat.toDigits 10 i.natAbs

structure Numeral where
  sign : Option Char
  whole : List Char
  fraction : Option (List Char)
  exponentSign : Option Char
  exponent : Option (List Char)

namespace Numeral

def takeSign : List Char → Option Char × List Char
  | '+' :: s => (some '+', s)
  | '-' :: s => (some '-', s)
  | s => (none, s)

/-- Take a numeral apart. Any part may lack its digits; which ones may is the reader's rule. -/
def split? (s : List Char) : Option Numeral :=
  let (sign, s) := takeSign s
  let whole := s.takeWhile Char.isDigit
  let (fraction, s) := match s.dropWhile Char.isDigit with
    | '.' :: s => (some (s.takeWhile Char.isDigit), s.dropWhile Char.isDigit)
    | s => (none, s)
  match s with
  | [] => some ⟨sign, whole, fraction, none, none⟩
  | e :: s =>
    let (exponentSign, digits) := takeSign s
    if (e = 'e' || e = 'E') && digits.all Char.isDigit then
      some ⟨sign, whole, fraction, exponentSign, some digits⟩
    else none

def isNegative (n : Numeral) : Bool := n.sign = some '-'

def isWhole (n : Numeral) : Bool := n.fraction.isNone && n.exponent.isNone

def scale (n : Numeral) : Int :=
  let digits := Nat.ofDigitChars 10 (n.exponent.getD []) 0
  if n.exponentSign = some '-' then -digits else digits

end Numeral

end Orchestration.Text
