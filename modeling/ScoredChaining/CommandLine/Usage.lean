import ScoredChaining.Decimal.Reading

/-!
What the arguments of the program ask for.

Arguments are read from left to right and the first mistake counts; asking for help or the version
ends the reading. A value follows its option or is joined to it by an equals sign. Only where it is
allowed may a value that follows begin with a hyphen.

A value that follows its option is examined when the next option is reached. The last one in front
of a command is examined after the arguments of the command, so it does not keep the command from
giving help.
-/

namespace ScoredChaining.CommandLine

/-- What is asked of a run. -/
structure RunOptions where
  facts : String
  rules : String
  priority : Option String
  threshold : Option Float
  /-- The descriptions of group constraints. -/
  decisions : List String
  maxPops : Option Nat
  oracle : Bool
  /-- Report every candidate. -/
  trajectory : Bool
  /-- Report in JSON. -/
  json : Bool

/-- What the program can do. -/
inductive Command where
  | run (options : RunOptions)
  | rules (facts rules : String)
  | config

/-- What help can be about. -/
inductive Topic where
  | program
  | run
  | rules
  | config
  | help
  deriving Repr, DecidableEq

/-- What the arguments ask for. -/
inductive Request where
  | help (topic : Topic)
  | version
  /-- A command, with the path of the settings file if there is one. -/
  | perform (config : Option String) (command : Command)

/-- Mistakes in the arguments. -/
inductive UsageError where
  | unknownOption (argument : String)
  | unexpectedArgument (argument : String)
  | missingValue (option : String)
  | unexpectedValue (option : String)
  | invalidValue (option value : String)
  | repeated (option : String)
  | missingOption (option : String)
  | missingCommand
  deriving Repr, DecidableEq

/-! ### Options -/

/-- What values an option takes. -/
inductive Content where
  /-- None: the option is there or not. -/
  | nothing
  | text
  /-- A path, which is not empty. -/
  | path
  | float
  | count
  deriving Repr, DecidableEq

/-- An option by its name, without the hyphens. -/
structure OptionForm where
  name : String
  content : Content
  /-- The option may be given more than once. -/
  isList : Bool
  /-- A value that follows may begin with a hyphen. -/
  takesHyphens : Bool

/-- An option of a kind, given once, whose value does not begin with a hyphen. -/
def OptionForm.single (name : String) (content : Content) : OptionForm :=
  ⟨name, content, false, false⟩

/-- The option that every command takes. -/
def configForm : OptionForm := .single "config" .path

/-- The options of a run. -/
def runForms : List OptionForm :=
  [.single "facts" .path, .single "rules" .path, .single "priority" .text,
    ⟨"threshold", .float, false, true⟩, ⟨"decision", .text, true, false⟩,
    .single "max-pops" .count, .single "oracle" .nothing, .single "trajectory" .nothing,
    .single "json" .nothing, configForm]

/-- The options of showing rules. -/
def rulesForms : List OptionForm :=
  [.single "facts" .path, .single "rules" .path, configForm]

/-- A number of candidates: an optional plus sign and digits, below `2 ^ 64`. -/
def readCount? (value : String) : Option Nat :=
  let digits :=
    match value.toList with
    | '+' :: rest => rest
    | cs => cs
  (Decimal.readNat? digits).filter (· < Nat.pow 2 64)

/-- The value is one of the kind. -/
def Content.accepts (value : String) : Content → Bool
  | .nothing => false
  | .text => true
  | .path => value ≠ ""
  | .float => (Decimal.readFloat? value.toList).isSome
  | .count => (readCount? value).isSome

/-! ### Arguments -/

/-- The options that were given, with their values, in order. -/
abbrev Given := List (String × String)

/-- An option with a value that is not examined yet. -/
abbrev Pending := Option (OptionForm × String)

/-- How the reading of a command's options ended. -/
inductive Scan where
  /-- All arguments were read. -/
  | complete (given : Given)
  /-- A word stands where no option does. -/
  | word (given : Given) (pending : Pending) (word : String) (rest : List String)
  | help
  | version

/-- The name in an argument that begins with two hyphens, and the value joined to it. -/
def splitLong (body : List Char) : String × Option String :=
  let name := body.takeWhile (· ≠ '=')
  match body.drop name.length with
  | _ :: value => (String.ofList name, some (String.ofList value))
  | [] => (String.ofList name, none)

/-- Notes an option and its value. -/
def note (form : OptionForm) (value : String) (given : Given) : Except UsageError Given :=
  if form.content ≠ .nothing && !form.content.accepts value then
    .error (.invalidValue form.name value)
  else if !form.isList && given.any fun (name, _) => name = form.name then
    .error (.repeated form.name)
  else .ok (given ++ [(form.name, value)])

/-- Notes the option whose value is not examined yet. -/
def settle (pending : Pending) (given : Given) : Except UsageError Given :=
  match pending with
  | none => .ok given
  | some (form, value) => note form value given

/-- The argument can be the value of an option before it. -/
def isFollower (form : OptionForm) (argument : String) : Bool :=
  form.takesHyphens || argument = "-" || argument.toList.head? ≠ some '-'

/-- Reads the options in front of the arguments. The program has a version of its own, the commands
do not. -/
def scan (forms : List OptionForm) (hasVersion : Bool) (given : Given) (pending : Pending) :
    List String → Except UsageError Scan
  | [] => do return .complete (← settle pending given)
  | argument :: rest =>
    match argument.toList with
    | ['-', '-'] =>
      match rest with
      | [] => do return .complete (← settle pending given)
      | word :: _ => .error (.unexpectedArgument word)
    | '-' :: '-' :: body =>
      let (name, joined) := splitLong body
      if name = "help" || hasVersion && name = "version" then
        if joined.isSome then .error (.unexpectedValue name)
        else do
          let _ ← settle pending given
          return if name = "help" then .help else .version
      else
        match forms.find? fun form => form.name == name with
        | none => .error (.unknownOption argument)
        | some form =>
          match form.content, joined, rest with
          | .nothing, some _, _ => .error (.unexpectedValue name)
          | .nothing, none, rest => do
            scan forms hasVersion (← note form "" (← settle pending given)) none rest
          | _, some value, rest => do
            scan forms hasVersion (← note form value (← settle pending given)) none rest
          | _, none, [] => .error (.missingValue name)
          | _, none, value :: rest =>
            if isFollower form value then do
              scan forms hasVersion (← settle pending given) (some (form, value)) rest
            else .error (.missingValue name)
    | ['-'] => .ok (.word given pending argument rest)
    | '-' :: letter :: _ =>
      if letter = 'h' then do
        let _ ← settle pending given
        return .help
      else if hasVersion && letter = 'V' then do
        let _ ← settle pending given
        return .version
      else .error (.unknownOption argument)
    | _ => .ok (.word given pending argument rest)

namespace Given

/-- The value of an option, the last one if there are several. -/
def value? (given : Given) (name : String) : Option String :=
  given.reverse.lookup name

/-- All values of an option, in order. -/
def values (given : Given) (name : String) : List String :=
  (given.filter fun (n, _) => n = name).map Prod.snd

/-- The value of an option that must be there. -/
def require (given : Given) (name : String) : Except UsageError String :=
  match value? given name with
  | some value => .ok value
  | none => .error (.missingOption name)

end Given

/-- The options of a run. -/
def RunOptions.ofGiven (given : Given) : Except UsageError RunOptions := do
  return {
    facts := ← Given.require given "facts"
    rules := ← Given.require given "rules"
    priority := Given.value? given "priority"
    threshold := (Given.value? given "threshold").bind fun x => Decimal.readFloat? x.toList
    decisions := Given.values given "decision"
    maxPops := (Given.value? given "max-pops").bind readCount?
    oracle := (Given.value? given "oracle").isSome
    trajectory := (Given.value? given "trajectory").isSome
    json := (Given.value? given "json").isSome }

/-- Reads the arguments of a command. -/
def readCommand (topic : Topic) (forms : List OptionForm)
    (make : Given → Except UsageError Command) (arguments : List String) :
    Except UsageError Request := do
  match ← scan forms false [] none arguments with
  | .help => return .help topic
  | .version => throw .missingCommand
  | .word _ _ word _ => throw (.unexpectedArgument word)
  | .complete given => return .perform (Given.value? given "config") (← make given)

/-- The topic of a request for help, by the words after it. -/
def readTopic : List String → Except UsageError Topic
  | [] => .ok .program
  | ["run"] => .ok .run
  | ["rules"] => .ok .rules
  | ["config"] => .ok .config
  | ["help"] => .ok .help
  | word :: _ => .error (.unexpectedArgument word)

/-- Reads a command's name and its arguments. -/
def readWord (word : String) (rest : List String) : Except UsageError Request :=
  match word with
  | "run" => readCommand .run runForms (fun given => (RunOptions.ofGiven given).map .run) rest
  | "rules" =>
    let make (given : Given) : Except UsageError Command := do
      return .rules (← Given.require given "facts") (← Given.require given "rules")
    readCommand .rules rulesForms make rest
  | "config" => readCommand .config [configForm] (fun _ => .ok .config) rest
  | "help" => (readTopic rest).map .help
  | word => .error (.unexpectedArgument word)

/-- Reads all arguments. A settings file named after the command goes before one named in front of
it. -/
def Request.read (arguments : List String) : Except UsageError Request := do
  match ← scan [configForm] true [] none arguments with
  | .help => return .help .program
  | .version => return .version
  | .complete _ => throw .missingCommand
  | .word given pending word rest =>
    match ← readWord word rest with
    | .perform config command =>
      let given ← settle pending given
      return .perform (config.or (Given.value? given "config")) command
    | request => return request

end ScoredChaining.CommandLine
