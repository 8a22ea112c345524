namespace Orchestration

inductive Segment
  | key (name : String)
  | index (i : Nat)
  deriving DecidableEq

abbrev Breadcrumb := List Segment

namespace Breadcrumb

def root (name : String) : Breadcrumb := [.key name]

def key (path : Breadcrumb) (name : String) : Breadcrumb := path ++ [.key name]

def index (path : Breadcrumb) (i : Nat) : Breadcrumb := path ++ [.index i]

def segmentText : Segment → String
  | .key name => "." ++ name
  | .index i => s!"[{i}]"

def text : Breadcrumb → String
  | [] => ""
  | .key name :: rest => name ++ String.join (rest.map segmentText)
  | path => String.join (path.map segmentText)

end Breadcrumb

end Orchestration
