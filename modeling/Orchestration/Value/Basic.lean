import Orchestration.Decimal.Notation
import Orchestration.Fields

/-!
Values: what every snippet resolves to. Maps keep the order of their entries but compare without
it.
-/

namespace Orchestration

inductive Scalar
  | null
  | bool (b : Bool)
  | integer (i : Int64)
  | decimal (d : Decimal)
  | text (s : String)
  deriving DecidableEq

inductive Value
  | scalar (s : Scalar)
  | list (items : List Value)
  | map (fields : List (String × Value))

namespace Scalar

def typeName : Scalar → String
  | .null => "null"
  | .bool _ => "boolean"
  | .integer _ => "integer"
  | .decimal _ => "decimal"
  | .text _ => "string"

def plain : Scalar → String
  | .null => ""
  | .bool b => if b then "true" else "false"
  | .integer i => String.ofList (Text.ofInt i.toInt)
  | .decimal d => String.ofList d.plain
  | .text s => s

def equal : Scalar → Scalar → Bool
  | .decimal a, .decimal b => a.equal b
  | a, b => a = b

theorem equal_comm (a b : Scalar) : a.equal b = b.equal a := by
  cases a <;> cases b <;> simp [equal, Decimal.equal_comm, eq_comm]

end Scalar

namespace Value

@[match_pattern] abbrev null : Value := .scalar .null

@[match_pattern] abbrev bool (b : Bool) : Value := .scalar (.bool b)

@[match_pattern] abbrev integer (i : Int64) : Value := .scalar (.integer i)

@[match_pattern] abbrev decimal (d : Decimal) : Value := .scalar (.decimal d)

@[match_pattern] abbrev text (s : String) : Value := .scalar (.text s)

instance : Inhabited Value := ⟨null⟩

def texts (ss : List String) : Value := .list (ss.map text)

def typeName : Value → String
  | .scalar s => s.typeName
  | .list _ => "list"
  | .map _ => "map"

def isNull : Value → Bool
  | .null => true
  | _ => false

def text? : Value → Option String
  | .text s => some s
  | _ => none

def bool? : Value → Option Bool
  | .bool b => some b
  | _ => none

def list? : Value → Option (List Value)
  | .list items => some items
  | _ => none

def map? : Value → Option (Fields Value)
  | .map fields => some fields
  | _ => none

def plain? : Value → Option String
  | .scalar s => some s.plain
  | _ => none

mutual

/-- Whether two values are equal: lists item by item, maps entry by entry whatever the order. -/
def equal : Value → Value → Bool
  | .scalar a, .scalar b => a.equal b
  | .list xs, .list ys => equalItems xs ys
  | .map xs, .map ys => xs.length == ys.length && within xs ys
  | _, _ => false

def equalItems : List Value → List Value → Bool
  | [], [] => true
  | x :: xs, y :: ys => x.equal y && equalItems xs ys
  | _, _ => false

def within : List (String × Value) → List (String × Value) → Bool
  | [], _ => true
  | (k, v) :: rest, other =>
    (match Fields.get? other k with
      | some w => v.equal w
      | none => false) && within rest other

end

def among (items : List Value) (v : Value) : Bool := items.any (·.equal v)

mutual

def sortKeys : Value → Value
  | .scalar s => .scalar s
  | .list items => .list (sortItems items)
  | .map fields => .map ((sortFields fields).mergeSort fun a b => a.1 ≤ b.1)

def sortItems : List Value → List Value
  | [] => []
  | v :: vs => v.sortKeys :: sortItems vs

def sortFields : List (String × Value) → List (String × Value)
  | [] => []
  | (k, v) :: rest => (k, v.sortKeys) :: sortFields rest

end

end Value

end Orchestration
