import Orchestration.Document.Line

/-!
The tokens of a document. They are those of a JSON text, but texts are folded, and the colon behind
a key must stand near the key and on its line.
-/

namespace Orchestration.Document

open Json (Token isMark)

/-- Where the machine stands between two characters; what it has seen is kept in reverse. -/
inductive Stage
  | gap
  | atom (seen : List Char)
  | text (seen : List Char)
  | escape (seen : List Char)

structure Scan where
  stage : Stage
  /-- The bytes since the last text began, if no line has ended since. -/
  distance : Option Nat

def keyWidth : Nat := 1024

namespace Scan

def start : Scan := ⟨.gap, none⟩

def pending (s : Scan) : List Token :=
  match s.stage with
  | .atom seen => [.atom seen.reverse]
  | _ => []

def isBehindKey (s : Scan) : Bool := s.distance.any (· ≤ keyWidth)

def advance (s : Scan) (c : Char) : Option Nat :=
  if isLineEnd c then none else s.distance.map (· + c.utf8Size)

def outside? (s : Scan) (c : Char) : Option (Scan × List Token) :=
  if isGap c then some (⟨.gap, s.advance c⟩, s.pending)
  else if c = ':' && !s.isBehindKey then none
  else if isMark c then some (⟨.gap, s.advance c⟩, s.pending ++ [.mark c])
  else if c = '"' then some (⟨.text [], some 1⟩, s.pending)
  else match s.stage with
    | .atom seen => some (⟨.atom (c :: seen), s.advance c⟩, [])
    | _ => some (⟨.atom [c], s.advance c⟩, [])

def step? (s : Scan) (c : Char) : Option (Scan × List Token) :=
  match s.stage with
  | .text seen =>
    if c = '"' then (text? seen.reverse).map fun t => (⟨.gap, s.advance c⟩, [.text t])
    else if c = '\\' then some (⟨.escape (c :: seen), s.advance c⟩, [])
    else some (⟨.text (c :: seen), s.advance c⟩, [])
  | .escape seen => some (⟨.text (c :: seen), s.advance c⟩, [])
  | .gap | .atom _ => s.outside? c

def run? : Scan → List Char → Option (List Token)
  | ⟨.text _, _⟩, [] | ⟨.escape _, _⟩, [] => none
  | s, [] => some s.pending
  | s, c :: cs => do
    let (s, found) ← s.step? c
    return found ++ (← s.run? cs)

end Scan

def tokens? (s : List Char) : Option (List Token) := Scan.start.run? s

end Orchestration.Document
