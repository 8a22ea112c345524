/-!
Cutting a text at the occurrences of a delimiter, and putting pieces together again. Occurrences
are taken leftmost first and never overlap.
-/

namespace Orchestration.Text

def after? : List Char → List Char → Option (List Char)
  | [], s => some s
  | _ :: _, [] => none
  | b :: bs, c :: cs => if b = c then after? bs cs else none

def splitOnce? (d : Char) : List Char → Option (List Char × List Char)
  | [] => none
  | c :: cs =>
    if c = d then some ([], cs) else (splitOnce? d cs).map fun (l, r) => (c :: l, r)

def pushFront (c : Char) : List (List Char) → List (List Char)
  | [] => [[c]]
  | p :: ps => (c :: p) :: ps

def cut (d : List Char) : (skip : Nat) → List Char → List (List Char)
  | _, [] => [[]]
  | skip + 1, _ :: cs => cut d skip cs
  | 0, c :: cs =>
    if d.isPrefixOf (c :: cs) then [] :: cut d (d.length - 1) cs else pushFront c (cut d 0 cs)

/-- The pieces between the occurrences of `d`. The empty delimiter occurs between any two
characters and at both ends. -/
def pieces (d s : List Char) : List (List Char) :=
  if d.isEmpty then [] :: s.map ([·]) ++ [[]] else cut d 0 s

def join (d : List Char) (ps : List (List Char)) : List Char := d.intercalate ps

def replace (d value s : List Char) : List Char := join value (pieces d s)

def occurs (d : List Char) : List Char → Bool
  | [] => d.isEmpty
  | c :: cs => d.isPrefixOf (c :: cs) || occurs d cs

end Orchestration.Text
