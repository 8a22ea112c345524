import Orchestration.Document.Token
import Orchestration.Json.Reader

namespace Orchestration.Document

/-- Whole numbers of more than 64 and up to 128 bits are refused, and a numeral beyond all decimals
is a text. -/
def number? (written : List Char) (n : Text.Numeral) : Option Scalar :=
  match Json.integer? n with
  | some i => some (.integer i)
  | none =>
    let size := Nat.ofDigitChars 10 n.whole 0
    let isRefused := if n.isNegative then size ≤ Nat.pow 2 127
      else Nat.pow 2 64 ≤ size && size < Nat.pow 2 128
    let d := Decimal.ofNumeral n
    if n.isWhole && isRefused then none
    else some (if d.isFinite then .decimal d else .text (String.ofList written))

def dialect : Json.Dialect := ⟨number?, 128⟩

def byteOrderMark : Char := '\ufeff'

def body : (isLineStart : Bool) → List Char → List Char
  | _, [] => []
  | isLineStart, c :: cs =>
    if c = ' ' || c = byteOrderMark && isLineStart then body false cs
    else if isLineEnd c then body true cs
    else c :: cs

def trailing (s : List Char) : List Char := (s.reverse.takeWhile isGap).reverse

def isClosed (s : List Char) : Bool :=
  ((s.reverse.dropWhile isGap).head?).any "\"]\x7d".toList.contains

/-- Outside of containers no line starts with a tab; the lines behind a single literal name or
numeral still belong to it. -/
def hasStrayTab (s : List Char) : Bool :=
  s.head? = some '\t' ||
    isClosed s && ((trailing s).dropWhile (!isLineEnd ·)).contains '\t'

def read? (s : String) : Option Value := do
  let s := s.toList
  if !s.all isPrintable then none
  let s := body true (unifyLineEnds s)
  if hasStrayTab s then none
  match ← tokens? s with
  | [] => some .null
  | tokens => Json.ofTokens? dialect tokens

end Orchestration.Document
