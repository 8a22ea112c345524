import Orchestration.Breadcrumb
import Orchestration.Json.Writer
import Orchestration.Migration.Kind
import Orchestration.Version.Basic

/-!
Everything that can go wrong, by cause. The wording is in the `message` functions; a cause becomes
an error when it is raised, and an error may say where it happened.
-/

namespace Orchestration

inductive CallFault
  | shape (expected : String)
  | form (expected : String)
  | noArguments
  | parameterName
  | resourceName
  | fileName
  | noFile (path : String)
  | attributeName (found : Value)
  | mappingName (found : Value)
  | facadeField
  | noParent
  | notJson
  | mapIndex
  | listIndex
  | notResolved
  | memberList
  | memberText
  | loopMap
  | loopList
  | loopValue (found : Value)
  | loopLengths
  | permutations
  | replacements (kind : String)
  | haystack (found : Value)
  | notText (what : String) (found : Value)
  | joinItem (multiple : Bool) (found : Value)
  | joinList
  | splitText (found : Value)
  | emptyDelimiter
  | splitIndex (last : Nat)
  | params (found : Value)
  | paramValue (found : Value)
  | emptyParam (placeholder : String)
  | unusedParam (placeholder : String)
  | algorithm (names : List String) (found : String)

inductive ResourceFault
  | notMap (name : String)
  | typeText (name key : String)
  | typeMissing (name key : String)
  | keyword (key : String)
  | sectionMap (key found : String)
  | dependencyTexts (key : String)
  | dependencies (key : String)
  | deletionPolicy (shown : String)
  | description (key : String)

inductive ParameterFault
  | notMap (name : String)
  | unknownType (name type : String)
  | typeMissing (name : String)
  | value (name : String) (found : Value) (expected : String)

inductive TemplateFault
  | call (function : String) (fault : CallFault)
  | resource (fault : ResourceFault)
  | parameter (fault : ParameterFault)
  | unreadable
  | notMap
  | unknownSection (key : String)
  | sectionMap (key found : String)
  | output
  | outputKeyword (key : String)
  | condition (shown : String)
  | conditionName (name : String)
  | conditionFunction
  | negation (found : Value)
  | mapping (name : String)
  | mappingEntry (name first second : String)
  | mergeItem (found : Value)
  | renamedToInput (name : String)
  | renamedTwice (name : String)
  | renamedToOther (found : Value)
  | propertiesMap (found : String)
  | state
  | stateEntry (name : String)
  | stateAttributes (name : String)
  | stated (message : String)

inductive VersionFault
  | missing
  | ambiguous (keys : List String)
  | unknown (key written : String)

inductive RuleProblem
  | emptyPath
  | manySources
  | noSource
  | notList (found : Value)
  | noPlugin
  | unwantedSource
  | customPath
  | target (found : Value)

inductive Cause
  | template (fault : TemplateFault)
  | version (fault : VersionFault)
  | unsupportedFunction (name : String) (version : Version) (reason : Unavailability)
  | templateReference (resource key : String)
  | templateAttribute (resource key : String)
  | unknownParameter (name : String)
  | parameterMissing (name : String)
  | circularCondition (name : String)
  | conditionResult (shown : String)
  | propertyConflict (properties : List String)
  | externalDependency (type id : String)
  | rule (kind : Migration.Kind) (path : String) (problem : RuleProblem)
  | finder (plugin value message : String)

/-- Broken rules of the library's own; they are never put in place of a fault in a template. -/
inductive Invariant
  | foreignCall (function own other : String)
  | stated (message : String)

inductive Error
  | bare (cause : Cause)
  | located (path : Breadcrumb) (cause : Cause)
  | invariant (what : Invariant)

abbrev Result := Except Error

namespace CallFault

def message (name : String) : CallFault → String
  | shape expected => s!"Incorrect arguments to \"{name}\" should be: {expected}"
  | form expected => s!"Arguments to \"{name}\" must be of the form {expected}"
  | noArguments => s!"Function \"{name}\" must have arguments"
  | parameterName => s!"Parameter name in \"{name}\" must be a string"
  | resourceName => s!"Argument to \"{name}\" must be a resource name"
  | fileName => s!"Argument to \"{name}\" must be a string"
  | noFile path => s!"No content found in the \"files\" section for {name} path: {path}"
  | attributeName found => s!"Attribute name in \"{name}\" must be a string, not {found.shortText}"
  | mappingName found => s!"Arguments to \"{name}\" must be strings, not {found.shortText}"
  | facadeField =>
    s!"Incorrect arguments to \"{name}\" should be one of: metadata, deletion_policy, update_policy"
  | noParent => s!"\"{name}\" can only be used in a template that implements a resource"
  | notJson => s!"\"{name}\": the text is not JSON"
  | mapIndex => s!"Index to \"{name}\" must be a string"
  | listIndex => s!"Index to \"{name}\" must be an integer"
  | notResolved => s!"Arguments to \"{name}\" not fully resolved"
  | memberList => s!"Member list must be a list (in \"{name}\")"
  | memberText => s!"Member list items must be strings (in \"{name}\")"
  | loopMap => s!"The \"for_each\" argument to \"{name}\" must contain a map"
  | loopList => s!"The values of the \"for_each\" argument to \"{name}\" must be lists"
  | loopValue found => s!"\"{name}\" loop values must be strings or numbers, not {found.shortText}"
  | loopLengths =>
    s!"For \"{name}\" the lists in \"for_each\" must have the same length when \"permutations\" is false"
  | permutations => s!"\"permutations\" should be boolean type for \"{name}\" function"
  | replacements kind => s!"\"{name}\" {kind} must be a map"
  | haystack found => s!"\"{name}\" can't work with {found.shortText}, should be a list"
  | notText what found => s!"\"{name}\": {what} must be a string, not {found.shortText}"
  | joinItem true found =>
    s!"\"{name}\": Items to join must be string, map or list not {found.shortText}"
  | joinItem false found => s!"\"{name}\": Items to join must be strings not {found.shortText}"
  | joinList => s!"\"{name}\": must operate on a list"
  | splitText found => s!"\"{name}\": can only split strings, not {found.shortText}"
  | emptyDelimiter => s!"\"{name}\": delimiter must not be empty"
  | splitIndex last => s!"\"{name}\": Incorrect index, should be between 0 and {last}"
  | params found => s!"\"{name}\": parameters must be a mapping, not {found.shortText}"
  | paramValue found => s!"\"{name}\": params must be strings or numbers, not {found.shortText}"
  | emptyParam placeholder => s!"\"{name}\": has an empty value for parameter \"{placeholder}\""
  | unusedParam placeholder =>
    s!"\"{name}\": The following params were not found in the template: {placeholder}"
  | algorithm names found =>
    let known := ", ".intercalate names
    s!"Algorithm must be one of {known}, not \"{found}\" (in \"{name}\")"

end CallFault

namespace ResourceFault

def message : ResourceFault → String
  | notMap name => s!"Resource {name} is not a valid resource definition"
  | typeText name key => s!"Resource {name} \"{key}\" must be a string"
  | typeMissing name key => s!"Resource {name} is missing \"{key}\""
  | keyword key => s!"\"{key}\" is not a valid keyword inside a resource definition"
  | sectionMap key found => s!"\"{key}\" must be a map, not a {found}"
  | dependencyTexts key => s!"\"{key}\" must be a list of strings"
  | dependencies key => s!"\"{key}\" must be a string or a list of strings"
  | deletionPolicy shown => s!"Invalid deletion policy \"{shown}\""
  | description key => s!"\"{key}\" must be a string"

end ResourceFault

namespace ParameterFault

def message : ParameterFault → String
  | notMap name => s!"Invalid parameter \"{name}\": the schema must be a map"
  | unknownType name type => s!"Invalid type ({type}) of parameter \"{name}\""
  | typeMissing name => s!"Missing parameter type for parameter: {name}"
  | value name found expected =>
    s!"Parameter '{name}' is invalid: value {found.shortText} is not {expected}"

end ParameterFault

namespace TemplateFault

def message : TemplateFault → String
  | call function fault => fault.message function
  | resource fault => fault.message
  | parameter fault => fault.message
  | unreadable => "Unable to parse template: the text is not JSON"
  | notMap => "The template must be a map"
  | unknownSection key => s!"The template section is invalid: {key}"
  | sectionMap key found => s!"The section \"{key}\" must be a map, not a {found}"
  | output => "Outputs must be maps"
  | outputKeyword key => s!"\"{key}\" is not a valid keyword inside an output definition"
  | condition shown => s!"Invalid condition \"{shown}\""
  | conditionName name => s!"Invalid condition name \"{name}\""
  | conditionFunction => "Invalid condition: expected a condition function"
  | negation found =>
    s!"The condition value should be boolean, after resolved the value is: {found.shortText}"
  | mapping name => s!"Mapping \"{name}\" does not exist"
  | mappingEntry name first second => s!"Mapping \"{name}\" has no entry \"{first}\".\"{second}\""
  | mergeItem found =>
    s!"Incorrect arguments: Items to merge must be maps. {found.shortText} is not a map"
  | renamedToInput name => s!"key replacement {name} collides with a key in the input map"
  | renamedTwice name => s!"key replacement {name} collides with a key in the output map"
  | renamedToOther found => s!"key replacement {found.shortText} must be a string"
  | propertiesMap found => s!"Properties must be a map, not {found}"
  | state => "The resource state must be a map"
  | stateEntry name => s!"The state of resource \"{name}\" must be a map"
  | stateAttributes name => s!"The attributes of resource \"{name}\" must be a map"
  | stated message => message

end TemplateFault

namespace VersionFault

def message : VersionFault → String
  | missing =>
    s!"Template format version not found (expected one of {Version.hotKey}, {Version.awsKey}, {Version.heatKey})"
  | ambiguous keys =>
    let found := ", ".intercalate keys
    s!"Ambiguous versions ({found})"
  | unknown key written =>
    let known := ", ".intercalate (Version.all.map Version.text)
    s!"\"{key}: {written}\". Should be one of: {known}"

end VersionFault

namespace RuleProblem

def message : RuleProblem → String
  | emptyPath => "the translation path is empty"
  | manySources => "only one of value, value_name and value_path may be set"
  | noSource => "one of value, value_name or value_path is required"
  | notList found => s!"value must be a list, not {found.shortText}"
  | noPlugin => "a client plugin and finder are required"
  | unwantedSource => "no value source may be set"
  | customPath => "custom_value_path needs value_path or value_name"
  | target found => s!"{found.shortText} is not a list"

end RuleProblem

namespace Cause

def message : Cause → String
  | template fault => fault.message
  | version fault => s!"The template version is invalid: {fault.message}"
  | unsupportedFunction name v reason => reason.message name v
  | templateReference resource key =>
    s!"The specified reference \"{resource}\" (in {key}) is incorrect."
  | templateAttribute resource key => s!"The Referenced Attribute ({resource} {key}) is incorrect."
  | unknownParameter name => s!"The Parameter ({name}) was not defined in template."
  | parameterMissing name => s!"The Parameter ({name}) was not provided."
  | circularCondition name => s!"Circular definition for condition \"{name}\""
  | conditionResult shown =>
    s!"Invalid condition \"{shown}\": the definition of the condition is invalid"
  | propertyConflict properties =>
    "Cannot define the following properties at the same time: " ++ ", ".intercalate properties
  | externalDependency type id => s!"Invalid dependency with external {type} resource: {id}"
  | rule kind path problem =>
    s!"Invalid translation rule: {kind.name} rule for \"{path}\": {problem.message}"
  | finder plugin value message => s!"{plugin} failed to find {value}: {message}"

end Cause

namespace Invariant

def message : Invariant → String
  | foreignCall function own other =>
    s!"function \"{function}\" belongs to stack {own} but was evaluated in stack {other}"
  | stated message => message

end Invariant

namespace Error

def message : Error → String
  | bare cause => cause.message
  | located path cause => s!"{path.text}: {cause.message}"
  | invariant what => s!"internal invariant violated: {what.message}"

/-- Say where an error happened, in front of what it says itself. Broken invariants say nothing. -/
def atPath (path : Breadcrumb) : Error → Error
  | bare cause => located path cause
  | located inner cause => located (path ++ inner) cause
  | invariant what => invariant what

theorem atPath_atPath (p q : Breadcrumb) (e : Error) :
    (e.atPath q).atPath p = e.atPath (p ++ q) := by cases e <;> simp [atPath]

end Error

def fault {α : Type} (f : TemplateFault) : Result α := .error (.bare (.template f))

def located {α : Type} (path : Breadcrumb) : Result α → Result α := Except.mapError (Error.atPath path)

end Orchestration
