import Orchestration.Value.Basic

namespace Orchestration

namespace Json

def hexDigit (n : Nat) : Char := Nat.digitChar (n % 16)

/-- A character inside a text: only quotes, backslashes and control characters are escaped. -/
def escape (c : Char) : List Char :=
  match c with
  | '"' => ['\\', '"']
  | '\\' => ['\\', '\\']
  | '\x08' => ['\\', 'b']
  | '\x0c' => ['\\', 'f']
  | '\n' => ['\\', 'n']
  | '\r' => ['\\', 'r']
  | '\t' => ['\\', 't']
  | c =>
    if c.toNat < 0x20 then ['\\', 'u', '0', '0', hexDigit (c.toNat / 16), hexDigit c.toNat]
    else [c]

def quote (s : String) : List Char := '"' :: s.toList.flatMap escape ++ ['"']

def scalar : Scalar → List Char
  | .text s => quote s
  | .decimal d => if d.isFinite then d.write .json else "null".toList
  | .null => "null".toList
  | s => s.plain.toList

mutual

def compact : Value → List Char
  | .scalar s => scalar s
  | .list items => '[' :: compactItems items ++ [']']
  | .map fields => '\x7b' :: compactFields fields ++ ['\x7d']

def compactItems : List Value → List Char
  | [] => []
  | [v] => compact v
  | v :: vs => compact v ++ ',' :: compactItems vs

def compactFields : List (String × Value) → List Char
  | [] => []
  | [(k, v)] => quote k ++ ':' :: compact v
  | (k, v) :: rest => quote k ++ ':' :: compact v ++ ',' :: compactFields rest

end

def newline (depth : Nat) : List Char := '\n' :: List.replicate (2 * depth) ' '

mutual

def indented (depth : Nat) : Value → List Char
  | .scalar s => scalar s
  | .list [] => ['[', ']']
  | .list items => '[' :: indentedItems (depth + 1) items ++ newline depth ++ [']']
  | .map [] => ['\x7b', '\x7d']
  | .map fields => '\x7b' :: indentedFields (depth + 1) fields ++ newline depth ++ ['\x7d']

def indentedItems (depth : Nat) : List Value → List Char
  | [] => []
  | [v] => newline depth ++ indented depth v
  | v :: vs => newline depth ++ indented depth v ++ ',' :: indentedItems depth vs

def indentedFields (depth : Nat) : List (String × Value) → List Char
  | [] => []
  | [(k, v)] => newline depth ++ quote k ++ ':' :: ' ' :: indented depth v
  | (k, v) :: rest =>
    newline depth ++ quote k ++ ':' :: ' ' :: indented depth v ++ ',' :: indentedFields depth rest

end

end Json

namespace Text

/-- The last boundary between characters that is not behind byte `n`, looked for from there back to
the start of the text, which is one. -/
def lastBoundary (s : String) : (n : Nat) → s.Pos
  | 0 => s.startPos
  | n + 1 => if h : String.Pos.Raw.IsValid s ⟨n + 1⟩ then ⟨⟨n + 1⟩, h⟩ else lastBoundary s n

def clip (bytes : Nat) (s : String) : String :=
  if s.utf8ByteSize ≤ bytes then s else s.extract s.startPos (lastBoundary s bytes)

end Text

namespace Value

def json (v : Value) : String := String.ofList (Json.compact v)

def sortedJson (v : Value) : String := v.sortKeys.json

def prettyJson (v : Value) : String := String.ofList (Json.indented 0 v)

/-- The text of a value in messages: its sorted JSON, cut to 200 bytes. -/
def shortText (v : Value) : String := Text.clip 200 v.sortedJson

end Value

end Orchestration
