import Orchestration.Json.Token

/-!
The lines of documents. A text between quotes may run over several lines, which are folded into one:
a single line end is read as a space, further ones are kept, and the blanks around them are not.
-/

namespace Orchestration.Document

def isPrintable (c : Char) : Bool :=
  let n := c.toNat
  n = 0x09 || n = 0x0A || n = 0x0D || (0x20 ≤ n && n ≤ 0x7E) || n = 0x85 ||
    (0xA0 ≤ n && n ≤ 0xFFFD) || 0x10000 ≤ n

def isSpace (c : Char) : Bool := c = ' ' || c = '\t'

def isLineEnd (c : Char) : Bool := c = '\n' || c = '\u2028' || c = '\u2029'

def isGap (c : Char) : Bool := isSpace c || isLineEnd c

def unifyLineEnds : List Char → List Char
  | [] => []
  | '\r' :: '\n' :: cs => '\n' :: unifyLineEnds cs
  | c :: cs => (if c = '\r' || c = '\x85' then '\n' else c) :: unifyLineEnds cs

/-- What is read for a run of blanks and line ends: the blanks if no line ends. Otherwise the line
ends, except that a first line feed only says that there is a gap. -/
def foldGap (gap : List Char) : List Char :=
  match gap.filter isLineEnd with
  | [] => gap
  | ['\n'] => [' ']
  | '\n' :: more => more
  | ends => ends

def isDivider : List Char → Bool
  | a :: b :: c :: d :: _ => (a = '-' || a = '.') && b = a && c = a && isGap d
  | _ => false

/-- Fold the lines of a text, `gap` being the blanks in front of it, last one first; `none` when a
line starts like a divider. -/
def foldLines? : (gap : List Char) → List Char → Option (List Char)
  | gap, [] => some (foldGap gap.reverse)
  | gap, c :: cs =>
    if isGap c then foldLines? (c :: gap) cs
    else if gap.head?.any isLineEnd && isDivider (c :: cs) then none
    else do return foldGap gap.reverse ++ c :: (← foldLines? [] cs)

/-- The character of a `\u` escape. It is a whole one, so surrogates are none. -/
def codePoint? (digits : List Char) : Option Char := do
  let n ← digits.foldlM (fun n c => do return 16 * n + (← Json.hexDigit? c)) 0
  if 0xD800 ≤ n && n < 0xE000 then none else some (Char.ofNat n)

def unescape? : List Char → Option (List Char)
  | [] => some []
  | ['\\'] => none
  | '\\' :: 'u' :: a :: b :: c :: d :: cs => do
    return (← codePoint? [a, b, c, d]) :: (← unescape? cs)
  | '\\' :: c :: cs => do return (← Json.escaped? c) :: (← unescape? cs)
  | c :: cs => do return c :: (← unescape? cs)

def text? (written : List Char) : Option (List Char) := do unescape? (← foldLines? [] written)

@[simp] theorem foldGap_nil : foldGap [] = [] := rfl

@[simp] theorem foldLines?_nil : foldLines? [] [] = some [] := rfl

@[simp] theorem unescape?_nil : unescape? [] = some [] := rfl

end Orchestration.Document
