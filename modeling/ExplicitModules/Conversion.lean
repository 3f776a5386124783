import ExplicitModules.Project.Basic
import ExplicitModules.Replacement

/-!
# Converting a project

Every source file is read, its relative specifiers are replaced by explicit ones, and it is saved if
anything changed, one file after the other. A fault ends the run; the files before it stay converted
and what happened so far is told as events.
-/
namespace ExplicitModules
set_option autoImplicit false
open Source (Document Declaration)

structure ConversionSettings where
  /-- Tell also which files are visited and which candidates are missing. -/
  debug : Bool := false
  /-- Decide everything and write nothing. -/
  dryRun : Bool := false
deriving DecidableEq, Repr

inductive Event
  | fileChecked (path : Path)
  | probeMissed (candidate : Path)
  | noReplacement (path : Path) (specifier : String)
  | specifierReplaced (path : Path) (declaration : Declaration) (written : String)
  | fileModified (path : Path)
deriving DecidableEq, Repr

def reportVersion : Nat := 1

structure Report where
  root : Path
  filesChecked : Nat := 0
  filesModified : List Path := []
  specifiersReplaced : Nat := 0
  dryRun : Bool
deriving DecidableEq, Repr

namespace Conversion

/-- A document after some of its declarations have been looked at. -/
structure Editing where
  document : Document
  replaced : Nat
  events : List Event

def missEvents (path : Path) (specifier : String) (tried : List Path) : List Event :=
  tried.map .probeMissed ++ [.noReplacement path specifier]

/-- Looks at one declaration of `d` and replaces its specifier if there is a replacement. The
events of debugging are told unless an attribute clause settles the matter. -/
def makeExplicit (t : FileTree) (root : Path) (debug : Bool) (d : Document)
    (declaration : Declaration) : Editing :=
  let literal := declaration.specifier
  let s := Specifier.ofText d.path literal.value
  let decision := Replacement.decisionFor t root s declaration.hasAttributes
  match decision.replacement with
  | none =>
    if debug && s.isRelative && !declaration.hasAttributes then
      ⟨d, 0, missEvents d.path s.written decision.tried⟩
    else ⟨d, 0, []⟩
  | some r =>
    match d.replace? literal (r.render literal.quote) with
    | none => ⟨d, 0, []⟩
    | some edited => ⟨edited, 1, [.specifierReplaced d.path declaration r.specifier]⟩

def makeAllExplicit (t : FileTree) (root : Path) (debug : Bool) (start : Document)
    (declarations : List Declaration) : Editing :=
  declarations.foldl (fun soFar declaration =>
    let next := makeExplicit t root debug soFar.document declaration
    ⟨next.document, soFar.replaced + next.replaced, soFar.events ++ next.events⟩) ⟨start, 0, []⟩

structure Progress where
  tree : FileTree
  events : List Event
  report : Report

structure Outcome where
  progress : Progress
  fault : Option Fault

def Progress.tell (p : Progress) (events : List Event) : Progress :=
  { p with events := p.events ++ events }

/-- The names to try for the temporary file beside each source. -/
abbrev TemporaryNames := Path → List String

/-- Saves an edited document, unless the run is dry, and notes the file as modified. -/
def finishFile (names : TemporaryNames) (settings : ConversionSettings) (p : Progress)
    (d : Document) : Outcome :=
  let saved := if settings.dryRun then ⟨p.tree, none⟩ else d.saveThrough (names d.path) p.tree
  match saved.stop with
  | some stop => ⟨{ p with tree := saved.tree }, some (.ofSaveStop stop)⟩
  | none =>
    let report := { p.report with filesModified := p.report.filesModified ++ [d.path] }
    ⟨{ tree := saved.tree, events := p.events ++ [.fileModified d.path], report }, none⟩

def convertFile (names : TemporaryNames) (root : Path) (settings : ConversionSettings)
    (p : Progress) (path : Path) : Outcome :=
  let visited := p.tell (if settings.debug then [.fileChecked path] else [])
  let counted := { visited with
    report := { visited.report with filesChecked := visited.report.filesChecked + 1 } }
  match Document.read p.tree path with
  | .error e => ⟨counted, some (.file e)⟩
  | .ok d =>
    let r := makeAllExplicit p.tree root settings.debug d d.declarations
    let told := counted.tell r.events
    let noted := { told with
      report := { told.report with
        specifiersReplaced := told.report.specifiersReplaced + r.replaced } }
    if r.replaced = 0 then ⟨noted, none⟩ else finishFile names settings noted r.document

def convertFiles (names : TemporaryNames) (root : Path) (settings : ConversionSettings)
    (p : Progress) : List Path → Outcome
  | [] => ⟨p, none⟩
  | path :: rest =>
    let done := convertFile names root settings p path
    match done.fault with
    | some _ => done
    | none => convertFiles names root settings done.progress rest

structure Result where
  tree : FileTree
  events : List Event
  report : Except Fault Report

def run (names : TemporaryNames) (t : FileTree) (options : ProjectOptions)
    (settings : ConversionSettings) : Result :=
  match Project.load t options with
  | .error e => ⟨t, [], .error e⟩
  | .ok project =>
    let start : Progress := ⟨t, [], { root := project.root, dryRun := settings.dryRun }⟩
    let outcome := convertFiles names project.root settings start project.sourceFiles
    match outcome.fault with
    | some e => ⟨outcome.progress.tree, outcome.progress.events, .error e⟩
    | none => ⟨outcome.progress.tree, outcome.progress.events, .ok outcome.progress.report⟩

end Conversion
end ExplicitModules
