import Orchestration.Text.Blank
import Orchestration.Text.Pieces

namespace Orchestration.Text

/-- Lines end at a line feed, a carriage return in front of it belongs to the line end, and the
last line may lack its end. -/
def lines (s : List Char) : List (List Char) :=
  let ls := pieces ['\n'] s
  let ended := ls.dropLast.map fun l => if l.getLast? = some '\r' then l.dropLast else l
  match ls.getLast? with
  | some [] | none => ended
  | some l => ended ++ [l]

def isBlankLine (line : List Char) : Bool := line.all isBlank

def indentWidth (line : List Char) : Nat :=
  (line.takeWhile isBlank).foldl (fun width c => width + c.utf8Size) 0

def dropBytes : Nat → List Char → Option (List Char)
  | 0, s => some s
  | _ + 1, [] => none
  | n + 1, c :: cs => if c.utf8Size ≤ n + 1 then dropBytes (n + 1 - c.utf8Size) cs else none

def sharedIndent (ls : List (List Char)) : Nat :=
  (((ls.filter fun l => !isBlankLine l).map indentWidth).min?).getD 0

/-- Take the shared indentation off every line and end every line with a line feed; blank lines
become empty. `none` when the indentation, counted in bytes, ends inside a character. -/
def dedent (s : List Char) : Option (List Char) :=
  let ls := lines s
  let kept := ls.mapM fun l =>
    if isBlankLine l then some ['\n'] else (dropBytes (sharedIndent ls) l).map (· ++ ['\n'])
  kept.map List.flatten

end Orchestration.Text
