import Orchestration.Fields
import Orchestration.Text.Pieces

namespace Orchestration.CommandLine

inductive Command
  | validate
  | resolve
  | deps
  deriving DecidableEq

inductive Key
  | directory
  | template
  | environment
  | parameter
  | state
  | file
  | stackName
  | outputFormat
  deriving DecidableEq

structure Options where
  directories : List String := []
  template : String
  environments : List String := []
  parameters : List (String × String) := []
  state : Option String := none
  files : List (String × String) := []
  stackName : String := "hotplate"

inductive Misuse
  | noCommand
  | unknownCommand (name : String)
  | secondCommand (name : String)
  | unknownOption (name : String)
  | noValue (name : String)
  | noTemplate
  | repeated (key : Key)
  | notPair (value : String)
  | unknownFormat (value : String)
  | misplaced (key : Key)

namespace Command

def ofName? : String → Option Command
  | "validate" => some validate
  | "resolve" | "eval" => some resolve
  | "deps" => some deps
  | _ => none

end Command

namespace Key

def all : List Key :=
  [directory, template, environment, parameter, state, file, stackName, outputFormat]

def long : Key → String
  | directory => "directory"
  | template => "template"
  | environment => "environment"
  | parameter => "parameter"
  | state => "state"
  | file => "file"
  | stackName => "stack-name"
  | outputFormat => "output-format"

def short? : Key → Option Char
  | directory => some 'C'
  | template => some 't'
  | environment => some 'e'
  | parameter => some 'P'
  | state => some 's'
  | outputFormat => some 'F'
  | file | stackName => none

end Key

namespace Misuse

def message : Misuse → String
  | noCommand => "a command is required: validate, resolve or deps"
  | unknownCommand name => s!"unrecognized command '{name}'"
  | secondCommand name => s!"unexpected argument '{name}'"
  | unknownOption name => s!"unexpected option '{name}'"
  | noValue name => s!"a value is required for '{name}'"
  | noTemplate => "the option '--template' is required"
  | repeated key => s!"the option '--{key.long}' cannot be used more than once"
  | notPair value => s!"expected key=value, got '{value}'"
  | unknownFormat value => s!"invalid output format '{value}': expected json or yaml"
  | misplaced key => s!"the option '--{key.long}' belongs behind the command"

end Misuse

inductive Argument
  | word (w : String)
  | option (key : Key) (value : String)

inductive Opening
  | word (w : String)
  | option (name : String) (key : Key) (value : Option String)

def pair? (s : String) : Option (String × String) :=
  (Text.splitOnce? '=' s.toList).map fun (l, r) => (String.ofList l, String.ofList r)

/-- The value behind the letter of a short option; a sign of equality in front of it is left out. -/
def attached? : List Char → Option String
  | [] => none
  | '=' :: value => some (String.ofList value)
  | value => some (String.ofList value)

def opening (arg : String) : Except Misuse Opening :=
  match arg.toList with
  | '-' :: '-' :: body =>
    let (name, value) := match Text.splitOnce? '=' body with
      | some (name, value) => (String.ofList name, some (String.ofList value))
      | none => (String.ofList body, none)
    match Key.all.find? (·.long = name) with
    | some key => pure (.option arg key value)
    | none => throw (.unknownOption arg)
  | '-' :: letter :: value =>
    match Key.all.find? (·.short? = some letter) with
    | some key => pure (.option arg key (attached? value))
    | none => throw (.unknownOption arg)
  | _ => pure (.word arg)

def arguments : List String → Except Misuse (List Argument)
  | [] => pure []
  | arg :: rest => do
    match ← opening arg, rest with
    | .word w, rest => return .word w :: (← arguments rest)
    | .option _ key (some value), rest => return .option key value :: (← arguments rest)
    | .option _ key none, value :: rest => return .option key value :: (← arguments rest)
    | .option name _ none, [] => throw (.noValue name)

def values (args : List Argument) (key : Key) : List String :=
  args.filterMap fun
    | .option k value => if k = key then some value else none
    | .word _ => none

def single (args : List Argument) (key : Key) : Except Misuse (Option String) :=
  match values args key with
  | [] => pure none
  | [value] => pure (some value)
  | _ => throw (.repeated key)

def pairs (args : List Argument) (key : Key) : Except Misuse (List (String × String)) :=
  (values args key).mapM fun value =>
    match pair? value with
    | some found => pure found
    | none => throw (.notPair value)

/-- The options behind the command. What is printed is JSON, which is YAML as well. -/
def options (directories : List String) (args : List Argument) : Except Misuse Options := do
  let some template ← single args .template | throw .noTemplate
  let state ← single args .state
  let stackName := (← single args .stackName).getD "hotplate"
  if let some format ← single args .outputFormat then
    unless format = "json" || format = "yaml" do throw (.unknownFormat format)
  let parameters ← pairs args .parameter
  let files ← pairs args .file
  return ⟨directories, template, values args .environment, parameters, state, files, stackName⟩

/-- The command and its options. Only folders may stand in front of the command, and they count
only if there are none behind it. -/
def parse (args : List String) : Except Misuse (Command × Options) := do
  let args ← arguments args
  let isOption : Argument → Bool
    | .option _ _ => true
    | .word _ => false
  let before := args.takeWhile isOption
  for arg in before do
    if let .option key _ := arg then
      unless key = .directory do throw (.misplaced key)
  match args.dropWhile isOption with
  | .word name :: after =>
    let some command := Command.ofName? name | throw (.unknownCommand name)
    for arg in after do
      if let .word w := arg then throw (.secondCommand w)
    let behind := values after .directory
    let directories := if behind.isEmpty then values before .directory else behind
    return (command, ← options directories after)
  | _ => throw .noCommand

end Orchestration.CommandLine
