/-!
# Arguments

The arguments are read from left to right and the first one that does not fit ends the reading, as
does a request for help or for the version. The word `version` in place of a project asks for the
version too; a few options may follow it, again. Behind the word `help` there are no options.
-/
namespace ExplicitModules.CommandLine
set_option autoImplicit false

structure Options where
  project : Option String := none
  directory : Option String := none
  debug : Bool := false
  dryRun : Bool := false
  json : Bool := false
  jsonLogs : Bool := false
  verbosity : Nat := 0
deriving DecidableEq, Repr

inductive Command
  | convert (options : Options)
  | version
  | help
deriving DecidableEq, Repr

inductive UsageFault
  | unexpected (argument : String)
  | unknownCommand (name : String)
  | repeated (argument : String)
  | valueNotAllowed (argument : String)
  | valueMissing (argument : String)
  | valueEmpty (argument : String)
deriving DecidableEq, Repr

def UsageFault.message : UsageFault → String
  | .unexpected argument => "unexpected argument '" ++ argument ++ "' found"
  | .unknownCommand name => "unrecognized subcommand '" ++ name ++ "'"
  | .repeated argument => "the argument '" ++ argument ++ "' cannot be used multiple times"
  | .valueNotAllowed argument => "unexpected value for '" ++ argument ++ "' found; no more were expected"
  | .valueMissing argument =>
    "a value is required for '" ++ argument ++ "' but none was supplied"
  | .valueEmpty argument => "a value is required for '" ++ argument ++ "' but none was supplied"

/-- Where the reading stands: whether the word `version` has been read, and the options since. -/
structure Reading where
  inVersion : Bool := false
  options : Options := {}

def Reading.command (r : Reading) : Command :=
  if r.inVersion then .version else .convert r.options

inductive Progress
  | next (r : Reading)
  | done (c : Command)

abbrev Outcome := Except UsageFault Progress

def Reading.setProject (r : Reading) (value : String) : Outcome :=
  if r.inVersion ∨ r.options.project.isSome then .error (.unexpected value)
  else if value = "" then .error (.valueEmpty "[PROJECT]")
  else .ok (.next { r with options := { r.options with project := some value } })

def Reading.setDirectory (r : Reading) (value : String) : Outcome :=
  if r.options.directory.isSome then .error (.repeated "--cwd")
  else if value = "" then .error (.valueEmpty "--cwd")
  else .ok (.next { r with options := { r.options with directory := some value } })

def Reading.raiseVerbosity (r : Reading) : Reading :=
  { r with options := { r.options with verbosity := r.options.verbosity + 1 } }

def Reading.setFlag (r : Reading) (name : String) (isSet : Bool) (options : Options) : Outcome :=
  if isSet then .error (.repeated name) else .ok (.next { r with options })

/-- The flag of a long name; `--debug`, `--dry-run` and `--json` belong to conversions alone. -/
def Reading.longFlag (r : Reading) (name : String) : Outcome :=
  let o := r.options
  if name = "--verbose" then .ok (.next r.raiseVerbosity)
  else if name = "--json-logs" then r.setFlag name o.jsonLogs { o with jsonLogs := true }
  else if name = "--help" then .ok (.done .help)
  else if r.inVersion then .error (.unexpected name)
  else if name = "--debug" then r.setFlag name o.debug { o with debug := true }
  else if name = "--dry-run" then r.setFlag name o.dryRun { o with dryRun := true }
  else if name = "--json" then r.setFlag name o.json { o with json := true }
  else if name = "--version" then .ok (.done .version)
  else .error (.unexpected name)

/-- Flags of one letter, several of which may share a dash. -/
def Reading.shortFlags (r : Reading) (argument : String) : List Char → Outcome
  | [] => .ok (.next r)
  | c :: cs =>
    if c = 'v' then shortFlags r.raiseVerbosity argument cs
    else if c = 'h' then .ok (.done .help)
    else if c = 'V' ∧ r.inVersion = false then .ok (.done .version)
    else .error (.unexpected argument)

/-- An argument with a dash in front is an option, apart from the dash alone. -/
def looksLikeOption (argument : String) : Bool :=
  argument.toList.head? == some '-' && argument != "-"

def Reading.longOption (r : Reading) (argument : String) : Outcome :=
  let name := String.ofList (argument.toList.takeWhile (· != '='))
  match argument.toList.dropWhile (· != '=') with
  | [] => r.longFlag name
  | _ :: value =>
    if name = "--cwd" then r.setDirectory (String.ofList value)
    else
      match r.longFlag name with
      | .ok _ => .error (.valueNotAllowed name)
      | .error e => .error e

def Reading.argument (r : Reading) (argument : String) : Outcome :=
  if r.inVersion = false ∧ argument = "version" then .ok (.next { inVersion := true })
  else if ['-', '-'].isPrefixOf argument.toList then r.longOption argument
  else if looksLikeOption argument then r.shortFlags argument (argument.toList.drop 1)
  else r.setProject argument

def Outcome.andThen (outcome : Outcome) (go : Reading → Except UsageFault Command) :
    Except UsageFault Command :=
  match outcome with
  | .error e => .error e
  | .ok (.done c) => .ok c
  | .ok (.next r) => go r

/-- Behind two dashes alone every argument names the project. -/
def Reading.rest (r : Reading) : List String → Except UsageFault Command
  | [] => .ok r.command
  | value :: more => (r.setProject value).andThen fun r => rest r more

def Command.ofHelp : List String → Except UsageFault Command
  | [] => .ok .help
  | name :: rest =>
    if name = "version" ∨ name = "help" then
      match rest with
      | [] => .ok .help
      | other :: _ => .error (.unknownCommand other)
    else .error (.unknownCommand name)

def Reading.read (r : Reading) (arguments : List String) : Except UsageFault Command :=
  match arguments with
  | [] => .ok r.command
  | "--" :: more => r.rest more
  | "--cwd" :: [] => .error (.valueMissing "--cwd")
  | "--cwd" :: value :: more =>
    if looksLikeOption value then .error (.valueMissing "--cwd")
    else (r.setDirectory value).andThen fun r => r.read more
  | argument :: more =>
    if r.inVersion = false ∧ argument = "help" then Command.ofHelp more
    else (r.argument argument).andThen fun r => r.read more
termination_by arguments.length

def Command.ofArguments (arguments : List String) : Except UsageFault Command :=
  Reading.read {} arguments

end ExplicitModules.CommandLine
