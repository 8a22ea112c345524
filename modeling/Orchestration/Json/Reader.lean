import Orchestration.Json.Numeral
import Orchestration.Json.Token

/-!
Reading a value from a JSON text. Tokens are taken one at a time by a machine whose stack holds the
containers that are still open, so nesting is bounded by the height of the stack.
-/

namespace Orchestration.Json

structure Dialect where
  number? : List Char → Text.Numeral → Option Scalar
  depth : Nat

def Dialect.data : Dialect := ⟨dataNumber?, 127⟩

def atom? (d : Dialect) (s : List Char) : Option Scalar :=
  if s = "null".toList then some .null
  else if s = "true".toList then some (.bool true)
  else if s = "false".toList then some (.bool false)
  else ((Text.Numeral.split? s).filter isNumber).bind (d.number? s)

/-- A container that is still open: the items so far, last one first, or the entries so far and
the key that waits for its value. -/
inductive Frame
  | list (items : List Value)
  | map (entries : Fields Value) (key : String)

inductive Stage
  | value
  | item
  | key (entries : Fields Value) (isFirst : Bool)
  | colon (entries : Fields Value) (key : String)
  | more
  | done (v : Value)

structure Cursor where
  frames : List Frame
  stage : Stage

def deliver (v : Value) : List Frame → Cursor
  | [] => ⟨[], .done v⟩
  | .list items :: frames => ⟨.list (v :: items) :: frames, .more⟩
  | .map entries key :: frames => ⟨.map (entries.insert key v) key :: frames, .more⟩

def openValue? (d : Dialect) (frames : List Frame) : Token → Option Cursor
  | .text s => some (deliver (.text (String.ofList s)) frames)
  | .atom s => (atom? d s).map fun s => deliver (.scalar s) frames
  | .mark '[' => if frames.length < d.depth then some ⟨.list [] :: frames, .item⟩ else none
  | .mark '\x7b' => if frames.length < d.depth then some ⟨frames, .key [] true⟩ else none
  | .mark _ => none

def Cursor.step? (d : Dialect) (c : Cursor) (t : Token) : Option Cursor :=
  match c.stage, c.frames, t with
  | .item, .list _ :: frames, .mark ']' => some (deliver (.list []) frames)
  | .item, frames, t => openValue? d frames t
  | .value, frames, t => openValue? d frames t
  | .key _ true, frames, .mark '\x7d' => some (deliver (.map []) frames)
  | .key entries _, frames, .text key => some ⟨frames, .colon entries (String.ofList key)⟩
  | .colon entries key, frames, .mark ':' => some ⟨.map entries key :: frames, .value⟩
  | .more, .list items :: frames, .mark ']' => some (deliver (.list items.reverse) frames)
  | .more, .list items :: frames, .mark ',' => some ⟨.list items :: frames, .value⟩
  | .more, .map entries _ :: frames, .mark '\x7d' => some (deliver (.map entries) frames)
  | .more, .map entries _ :: frames, .mark ',' => some ⟨frames, .key entries false⟩
  | _, _, _ => none

def ofTokens? (d : Dialect) (tokens : List Token) : Option Value := do
  match (← tokens.foldlM (Cursor.step? d) ⟨[], .value⟩).stage with
  | .done v => some v
  | _ => none

def read? (d : Dialect) (s : String) : Option Value := do ofTokens? d (← tokens? s.toList)

end Orchestration.Json
