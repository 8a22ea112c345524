import Orchestration.Version.Basic

/-!
The intrinsic functions. An `Intrinsic` says what a call does; a `Form` says how a version lets it
be written, and so which arguments it accepts.
-/

namespace Orchestration

inductive Connective
  | and
  | or
  deriving DecidableEq

inductive Strictness
  | lenient
  /-- Every parameter occurs in the text. -/
  | strict
  /-- Every parameter occurs in the text and has a text that is not empty. -/
  | veryStrict
  deriving DecidableEq

inductive FacadeField
  | metadata
  | deletionPolicy
  | updatePolicy
  deriving DecidableEq

inductive Form
  | parameter
  | resource
  /-- A resource where there is one of that name, else a parameter. -/
  | reference
  | attributeOf
  | dottedAttribute
  | file
  | mapping
  | facade
  | select
  | memberList
  | loop (zips : Bool)
  | merge
  | rename
  | filter
  | concat (unique : Bool)
  | contains
  | join (multiple : Bool)
  | split (indexed : Bool)
  | replaceList
  | replaceMap (strictness : Strictness)
  | base64
  | digest
  | equals
  | connective (c : Connective)
  | choice
  | condition
  deriving DecidableEq

inductive Intrinsic
  | parameter
  | resource
  | attributeOf
  | file
  | mapping
  | facade (field : FacadeField)
  | select
  | memberList
  | loop (zips : Bool)
  | merge
  | rename
  | filter
  | concat (unique : Bool)
  | contains
  | join (multiple : Bool)
  | split
  | replaceList
  | replaceMap (strictness : Strictness)
  | base64
  | digest
  | equals
  | connective (c : Connective)
  | choice
  | condition
  | negation
  | unavailable (version : Version) (reason : Unavailability)

namespace FacadeField

def ofText? : String → Option FacadeField
  | "metadata" | "Metadata" => some metadata
  | "deletion_policy" | "DeletionPolicy" => some deletionPolicy
  | "update_policy" | "UpdatePolicy" => some updatePolicy
  | _ => none

end FacadeField

end Orchestration
