import Orchestration.Function.Intrinsic
import Orchestration.Value.Basic

/-!
Snippets: values with calls of intrinsic functions in them. Every call remembers the stack it was
read for. The canonical form of a snippet is the value it is written as.
-/

namespace Orchestration

/-- The name of one generation of a stack. -/
structure StackId where
  label : String
  deriving DecidableEq

structure Call where
  stack : StackId
  name : String
  fn : Intrinsic

inductive Snippet
  | scalar (s : Scalar)
  | list (items : List Snippet)
  | map (fields : List (String × Snippet))
  | call (call : Call) (args : Snippet)

namespace Snippet

@[match_pattern] abbrev null : Snippet := .scalar .null

@[match_pattern] abbrev bool (b : Bool) : Snippet := .scalar (.bool b)

@[match_pattern] abbrev text (s : String) : Snippet := .scalar (.text s)

mutual

def canonical : Snippet → Value
  | .scalar s => .scalar s
  | .list items => .list (canonicalItems items)
  | .map fields => .map (canonicalFields fields)
  | .call c args => .map [(c.name, args.canonical)]

def canonicalItems : List Snippet → List Value
  | [] => []
  | s :: rest => s.canonical :: canonicalItems rest

def canonicalFields : List (String × Snippet) → List (String × Value)
  | [] => []
  | (k, s) :: rest => (k, s.canonical) :: canonicalFields rest

end

theorem canonicalItems_eq (items : List Snippet) : canonicalItems items = items.map canonical := by
  induction items with
  | nil => rfl
  | cons s rest ih => exact congrArg _ ih

theorem canonicalFields_eq (fields : Fields Snippet) :
    canonicalFields fields = fields.map fun e => (e.1, e.2.canonical) := by
  induction fields with
  | nil => rfl
  | cons e rest ih => exact congrArg _ ih

mutual

def ofValue : Value → Snippet
  | .scalar s => .scalar s
  | .list items => .list (ofItems items)
  | .map fields => .map (ofFields fields)

def ofItems : List Value → List Snippet
  | [] => []
  | v :: vs => ofValue v :: ofItems vs

def ofFields : List (String × Value) → List (String × Snippet)
  | [] => []
  | (k, v) :: rest => (k, ofValue v) :: ofFields rest

end

mutual

theorem canonical_ofValue : ∀ v : Value, (ofValue v).canonical = v
  | .scalar s => rfl
  | .list items => by simp [ofValue, canonical, canonicalItems_ofItems items]
  | .map fields => by simp [ofValue, canonical, canonicalFields_ofFields fields]

theorem canonicalItems_ofItems : ∀ vs : List Value, canonicalItems (ofItems vs) = vs
  | [] => rfl
  | v :: vs => by simp [ofItems, canonicalItems, canonical_ofValue v, canonicalItems_ofItems vs]

theorem canonicalFields_ofFields :
    ∀ fields : List (String × Value), canonicalFields (ofFields fields) = fields
  | [] => rfl
  | (k, v) :: rest => by
    simp [ofFields, canonicalFields, canonical_ofValue v, canonicalFields_ofFields rest]

end

mutual

def isPlain : Snippet → Bool
  | .scalar _ => true
  | .list items => isPlainItems items
  | .map fields => isPlainFields fields
  | .call _ _ => false

def isPlainItems : List Snippet → Bool
  | [] => true
  | s :: rest => s.isPlain && isPlainItems rest

def isPlainFields : List (String × Snippet) → Bool
  | [] => true
  | (_, s) :: rest => s.isPlain && isPlainFields rest

end

def equal (a b : Snippet) : Bool := a.canonical.equal b.canonical

def isNull : Snippet → Bool
  | .null => true
  | _ => false

def isCall : Snippet → Bool
  | .call _ _ => true
  | _ => false

def text? : Snippet → Option String
  | .text s => some s
  | _ => none

def map? : Snippet → Option (Fields Snippet)
  | .map fields => some fields
  | _ => none

def list? : Snippet → Option (List Snippet)
  | .list items => some items
  | _ => none

def typeName : Snippet → String
  | .scalar s => s.typeName
  | .list _ => "list"
  | .map _ => "map"
  | .call _ _ => "function"

end Snippet

end Orchestration
