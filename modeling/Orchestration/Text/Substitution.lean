import Orchestration.Text.Pieces

/-!
Placeholders and the texts written in their place. `substitute` handles the longest placeholder
first and the others only in the pieces between its occurrences, so a text once written is never
searched again.
-/

namespace Orchestration.Text

structure Placeholder where
  name : List Char
  text : List Char

def Placeholder.width (p : Placeholder) : Nat := p.name.foldl (fun width c => width + c.utf8Size) 0

/-- Longest names first; names of one length keep their order. -/
def Placeholder.sort (ps : List Placeholder) : List Placeholder :=
  ps.mergeSort fun a b => b.width ≤ a.width

/-- Write the placeholders' texts, the first placeholder before the others. -/
def substitute : List Placeholder → List Char → List Char
  | [], s => s
  | p :: ps, s => join p.text ((pieces p.name s).map (substitute ps))

def replaceInTurn (ps : List Placeholder) (s : List Char) : List Char :=
  ps.foldl (fun s p => replace p.name p.text s) s

@[simp] theorem substitute_nil (s : List Char) : substitute [] s = s := rfl

@[simp] theorem replaceInTurn_nil (s : List Char) : replaceInTurn [] s = s := rfl

end Orchestration.Text
