import Orchestration.Value.Basic

namespace Orchestration.Json

inductive Token
  | mark (c : Char)
  | text (s : List Char)
  /-- A run of other characters: a literal name or a numeral, or a mistake. -/
  | atom (s : List Char)
  deriving DecidableEq

/-- Where the machine stands between two characters; texts are kept in reverse. -/
inductive Scan
  | gap
  | atom (seen : List Char)
  | text (seen : List Char)
  | escape (seen : List Char)
  /-- In a `\u` escape with `left` digits to come, behind the high surrogate `high` if there is one. -/
  | hex (seen : List Char) (high : Option Nat) (value left : Nat)
  /-- Behind a high surrogate: the escape of a low one must start. -/
  | low (seen : List Char) (high : Nat)
  | lowEscape (seen : List Char) (high : Nat)

def isMark (c : Char) : Bool := "\x7b\x7d[],:".toList.contains c

def isGap (c : Char) : Bool := c = ' ' || c = '\t' || c = '\n' || c = '\r'

def hexDigit? (c : Char) : Option Nat :=
  if c.isDigit then some (c.toNat - 48)
  else if 'a' ≤ c && c ≤ 'f' then some (c.toNat - 87)
  else if 'A' ≤ c && c ≤ 'F' then some (c.toNat - 55)
  else none

def escaped? : Char → Option Char
  | '"' => some '"'
  | '\\' => some '\\'
  | '/' => some '/'
  | 'b' => some '\x08'
  | 'f' => some '\x0c'
  | 'n' => some '\n'
  | 'r' => some '\r'
  | 't' => some '\t'
  | _ => none

/-- Take the UTF-16 unit of an escape. A surrogate needs its partner in the escape next to it. -/
def Scan.unit? (seen : List Char) : (high : Option Nat) → (unit : Nat) → Option Scan
  | none, u =>
    if 0xD800 ≤ u && u < 0xDC00 then some (.low seen u)
    else if 0xDC00 ≤ u && u < 0xE000 then none
    else some (.text (Char.ofNat u :: seen))
  | some h, u =>
    if 0xDC00 ≤ u && u < 0xE000 then
      some (.text (Char.ofNat (0x10000 + (h - 0xD800) * 0x400 + (u - 0xDC00)) :: seen))
    else none

def Scan.pending : Scan → List Token
  | .atom seen => [.atom seen.reverse]
  | _ => []

def Scan.outside (s : Scan) (c : Char) : Scan × List Token :=
  if isGap c then (.gap, s.pending)
  else if isMark c then (.gap, s.pending ++ [.mark c])
  else if c = '"' then (.text [], s.pending)
  else match s with
    | .atom seen => (.atom (c :: seen), [])
    | _ => (.atom [c], [])

def Scan.step? : Scan → Char → Option (Scan × List Token)
  | .text seen, c =>
    if c = '"' then some (.gap, [.text seen.reverse])
    else if c = '\\' then some (.escape seen, [])
    else if c.toNat < 0x20 then none
    else some (.text (c :: seen), [])
  | .escape seen, c =>
    if c = 'u' then some (.hex seen none 0 4, [])
    else (escaped? c).map fun e => (.text (e :: seen), [])
  | .hex seen high value left, c => do
    let value := 16 * value + (← hexDigit? c)
    if left ≤ 1 then return (← Scan.unit? seen high value, [])
    return (.hex seen high value (left - 1), [])
  | .low seen high, c => if c = '\\' then some (.lowEscape seen high, []) else none
  | .lowEscape seen high, c => if c = 'u' then some (.hex seen (some high) 0 4, []) else none
  | .gap, c => some (Scan.gap.outside c)
  | .atom seen, c => some ((Scan.atom seen).outside c)

def Scan.run? : Scan → List Char → Option (List Token)
  | .gap, [] => some []
  | .atom seen, [] => some [.atom seen.reverse]
  | _, [] => none
  | s, c :: cs => do
    let (s, found) ← s.step? c
    return found ++ (← s.run? cs)

def tokens? (s : List Char) : Option (List Token) := Scan.gap.run? s

end Orchestration.Json
