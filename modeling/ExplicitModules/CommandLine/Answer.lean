import ExplicitModules.CommandLine.Arguments
import ExplicitModules.CommandLine.Log
import ExplicitModules.Text.Json

/-!
# Answering a command line

From the arguments, the working directory and the tree to the exit code, what is printed and the
tree that is left. With a JSON report asked for, standard output holds that report and nothing else.
-/
namespace ExplicitModules.CommandLine
set_option autoImplicit false

def programName : String := "esmext"

def version : String := "0.1.0"

def versionLine : String := programName ++ " " ++ version

structure Answer where
  code : Nat
  output : String
  log : String
  tree : FileTree

def lines (texts : List String) : String :=
  String.join (texts.map fun text => text ++ "\n")

def reportJson (report : Report) : String :=
  let files := String.intercalate "," (report.filesModified.map fun p => Text.jsonString p.text)
  "\x7b\"schema_version\":" ++ toString reportVersion ++
    ",\"root_dir\":" ++ Text.jsonString report.root.text ++
    ",\"files_checked\":" ++ toString report.filesChecked ++
    ",\"files_modified\":[" ++ files ++ "]" ++
    ",\"specifiers_rewritten\":" ++ toString report.specifiersReplaced ++
    ",\"dry_run\":" ++ toString report.dryRun ++ "\x7d"

def modifiedLine? (dryRun : Bool) : Event → Option String
  | .fileModified path =>
    some ((if dryRun then "Would modify: " else "Modified: ") ++ path.text)
  | _ => none

namespace Options

def verbosityShown (o : Options) : Nat :=
  if o.debug then max o.verbosity 1 else o.verbosity

def conversionSettings (o : Options) : ConversionSettings where
  debug := o.debug || decide (0 < o.verbosity)
  dryRun := o.dryRun

def shownDirectory (o : Options) (workingDirectory : Path) : Path :=
  (o.directory.map Path.mk).getD workingDirectory

def projectOptions (o : Options) (workingDirectory : Path) : ProjectOptions where
  directory := workingDirectory.join (o.shownDirectory workingDirectory)
  project := o.project.map Path.mk

def outputOf (o : Options) (result : Conversion.Result) : String :=
  if o.json then
    match result.report with
    | .ok report => reportJson report ++ "\n"
    | .error _ => ""
  else lines (result.events.filterMap (modifiedLine? o.dryRun))

/-- The log of a conversion; its end is logged if standard output holds no report. Lines in JSON
carry the time of day and are not made here. -/
def logOf (o : Options) (workingDirectory : Path) (result : Conversion.Result) : String :=
  let told := result.events.filterMap LogEntry.ofEvent?
  let finished :=
    match result.report with
    | .ok report => if o.json then [] else [LogEntry.ofReport report]
    | .error _ => []
  let shown := (told ++ finished).filter fun e => decide (e.level.threshold ≤ o.verbosityShown)
  if o.jsonLogs then ""
  else lines (shown.map (LogEntry.line (o.shownDirectory workingDirectory).text))

def convert (o : Options) (names : Conversion.TemporaryNames) (t : FileTree)
    (workingDirectory : Path) : Answer :=
  let result := Conversion.run names t (o.projectOptions workingDirectory) o.conversionSettings
  let fault :=
    match result.report with
    | .ok _ => ""
    | .error e => "Error: " ++ e.message ++ "\n"
  { code := if result.report.isOk then 0 else 1
    output := o.outputOf result
    log := o.logOf workingDirectory result ++ fault
    tree := result.tree }

end Options

def usage : String :=
  "Usage: " ++ programName ++ " [OPTIONS] [PROJECT] [COMMAND]"

def answer (names : Conversion.TemporaryNames) (t : FileTree) (workingDirectory : Path)
    (arguments : List String) : Answer :=
  match Command.ofArguments arguments with
  | .error e => { code := 2, output := "", log := lines ["error: " ++ e.message, usage], tree := t }
  | .ok .version => { code := 0, output := lines [versionLine], log := "", tree := t }
  | .ok .help => { code := 0, output := lines [usage], log := "", tree := t }
  | .ok (.convert o) => o.convert names t workingDirectory

end ExplicitModules.CommandLine
