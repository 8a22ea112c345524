import Orchestration.Function.Build
import Orchestration.Function.Registry

/-!
Reading snippets. A map with a single key that names a function is a call; any other map is data.
A name under a negation is replaced by the definition of the condition, which is read with the
functions of the conditions section. A parser remembers which names are being replaced, so that a
definition that leads back to itself is refused.
-/

namespace Orchestration

structure Parser where
  inConditions : Bool
  /-- The conditions whose definitions are being read, innermost first. -/
  inlining : List String

abbrev Parsing := ExceptT Error (StateM Parser)

namespace Parser

def ordinary : Parser := ⟨false, []⟩

def forConditions : Parser := ⟨true, []⟩

end Parser

namespace Parsing

def lift {α : Type} (r : Result α) : Parsing α := ExceptT.mk (pure r)

def located {α : Type} (path : Breadcrumb) (parse : Parsing α) : Parsing α :=
  ExceptT.mk (Orchestration.located path <$> parse.run)

def within {α : Type} (enter leave : Parser → Parser) (parse : Parsing α) : Parsing α :=
  ExceptT.mk do
    modify enter
    let outcome ← parse.run
    modify leave
    return outcome

structure Operand where
  written : Value
  parse : Parsing Snippet

def Operand.condition (inline : String → Parsing Snippet) (o : Operand) : Parsing Snippet :=
  match o.written with
  | .text name => inline name
  | _ => o.parse

/-- The arguments of a negation. Outside of HOT the operand is the only item of a list. -/
def negation (site : Form.Site) (inline : String → Parsing Snippet) (whole : Operand)
    (items : Option (List Operand)) : Parsing Snippet :=
  match items, site.template.version with
  | some [operand], .cfn _ => do return .list [← operand.condition inline]
  | some _, .cfn _ => lift (site.refuse (.shape "[condition]"))
  | _, _ => whole.condition inline

section

variable (t : Template) (stack : StackId) (inline : String → Parsing Snippet)

mutual

def parse : Value → Breadcrumb → Parsing Snippet
  | .scalar s, _ => pure (.scalar s)
  | .list items, path => .list <$> parseItems items path 0
  | .map fields, path => do
    match ← parseCall fields path with
    | some call => return call
    | none => .map <$> parseFields fields path

def parseItems : List Value → Breadcrumb → Nat → Parsing (List Snippet)
  | [], _, _ => pure []
  | v :: vs, path, i => do
    let s ← parse v (path.index i)
    return s :: (← parseItems vs path (i + 1))

def parseFields : List (String × Value) → Breadcrumb → Parsing (Fields Snippet)
  | [], _ => pure []
  | (k, v) :: rest, path => do
    let s ← parse v (path.key k)
    return (k, s) :: (← parseFields rest path)

def parseCall : List (String × Value) → Breadcrumb → Parsing (Option Snippet)
  | [(name, args)], path => do
    let path := path.key name
    let inConditions := (← get).inConditions
    let site : Form.Site := ⟨t, inConditions, name⟩
    match t.version.reading inConditions name with
    | .data => return none
    | .function form =>
      let args ← parse args path
      let (fn, args) ← located path (lift (form.build site args))
      return some (.call ⟨stack, name, fn⟩ args)
    | .negation =>
      let args ← located path (negation site inline ⟨args, parse args []⟩ (operands? args))
      return some (.call ⟨stack, name, .negation⟩ args)
    | .unavailable reason =>
      let args ← parse args path
      return some (.call ⟨stack, name, .unavailable t.version reason⟩ args)
  | _, _ => pure none

def operands? : Value → Option (List Operand)
  | .list items => some (operands items)
  | _ => none

def operands : List Value → List Operand
  | [] => []
  | v :: vs => ⟨v, parse v []⟩ :: operands vs

end

end

/-- The parsed definition of a condition, read in place of its name. Definitions that are names are
followed. As long as no name comes up twice there are no more names to follow than conditions. -/
def inlineCondition (t : Template) (stack : StackId) : (fuel : Nat) → String → Parsing Snippet
  | fuel, name => do
    if (← get).inlining.contains name then throw (.bare (.circularCondition name))
    match t.condition? name, fuel with
    | none, _ => lift (fault (.conditionName name))
    | some _, 0 => throw (.bare (.circularCondition name))
    | some definition, fuel + 1 =>
      let inConditions := (← get).inConditions
      let inline := inlineCondition t stack fuel
      within (fun p => ⟨true, name :: p.inlining⟩) (fun p => ⟨inConditions, p.inlining.tail⟩)
        (match definition with
          | .text next => inline next
          | definition => parse t stack inline definition [])

end Parsing

namespace Template

def inlineCondition (t : Template) (stack : StackId) (name : String) : Parsing Snippet :=
  Parsing.inlineCondition t stack (t.entries .conditions).length name

def parse (t : Template) (stack : StackId) (v : Value) : Parsing Snippet :=
  Parsing.parse t stack (t.inlineCondition stack) v []

def snippet (t : Template) (p : Parser) (stack : StackId) (v : Value) : Result Snippet :=
  ((t.parse stack v).run p).1

end Template

end Orchestration
