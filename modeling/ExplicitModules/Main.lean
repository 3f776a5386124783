import ExplicitModules.CommandLine.Answer
import ExplicitModules.FileTree.Edit

/-!
# The program

Reads the part of the file system that a conversion asks about into a tree, answers the command line
on that tree and writes back the files that changed. The tree starts with the project and with what
lies on the way to it; a dry run tells which other places are asked about, until there are none.

This layer is thin and nothing is proved about it. Modes are not read: all entries of the tree have
the usual ones. A changed file is rewritten in place, with no temporary file beside it; what is proved
of saving is proved of the tree.
-/
namespace ExplicitModules.Program
set_option autoImplicit false
open CommandLine (Command Options)

/-- Names as long as those of real temporary files. -/
def temporaryNames : Conversion.TemporaryNames := fun _ =>
  (List.range 1000).map fun n => ".tmp" ++ toString (100000 + n)

def locationOf (path : String) : Location :=
  (FileTree.steps ⟨path⟩).map String.ofList

/-- Adds an entry of a directory. A link is kept as the path it leads to in the end; one that leads
nowhere, and a special file, is left out. -/
def addEntry (t : FileTree) (entry : IO.FS.DirEntry) : IO FileTree := do
  let loc := locationOf entry.path.toString
  let info ← entry.path.symlinkMetadata
  match info.type with
  | .dir => return t.put loc (.directory FileTree.directoryMode)
  | .file => return t.put loc (.file (← IO.FS.readBinFile entry.path) FileTree.fileMode)
  | .symlink =>
    try
      return t.put loc (.link (← IO.FS.realPath entry.path).toString)
    catch _ => return t
  | .other => return t

/-- Adds the entries of a directory, and of the directories in it if `deep`. -/
partial def addDirectory (deep : Bool) (t : FileTree) (path : String) : IO FileTree := do
  try
    let directory ← IO.FS.realPath path
    let mut grown := t
    for entry in ← directory.readDir do
      grown ← addEntry grown entry
      if deep && grown.isDirectoryAt (locationOf entry.path.toString) then
        grown ← addDirectory deep grown entry.path.toString
    return grown
  catch _ => return t

def addWay (t : FileTree) (path : Path) : IO FileTree :=
  path.ancestors.reverse.foldlM (fun t p => addDirectory false t p.text) t

/-- Places that a run asked about and did not find anything at. -/
def missedPlaces (result : Conversion.Result) : List Path :=
  let probed := result.events.filterMap fun
    | .probeMissed candidate => candidate.parent?
    | _ => none
  match result.report with
  | .error (.configUnreadable path _) => probed ++ path.parent?.toList
  | .error (.listedFileMissing path) => probed ++ path.parent?.toList
  | .error (.projectNotFound start) => probed ++ start.parent?.toList
  | _ => probed

/-- Directories whose whole content the include patterns ask about. -/
def walkedPlaces (t : FileTree) (options : ProjectOptions) : List Path :=
  let found : Except Fault (List Path) := do
    let target ← (t.canonical options.target).mapError .file
    let (root, config) ← Project.rootAndConfig t target
    let settings ← (config.map (TsConfig.load t)).getD (.ok {})
    let includes := Project.includesInForce root settings
    return includes.patterns.map fun pattern =>
      Project.literalPrefix (Project.absolutePattern t includes.base pattern)
  match found with
  | .ok places => places
  | .error _ => []

/-- Grows the tree until a dry run asks about no new place. -/
partial def settle (options : ProjectOptions) (asked : List Path) (t : FileTree) : IO FileTree := do
  let result := Conversion.run temporaryNames t options { debug := true, dryRun := true }
  let isNew (p : Path) := !asked.contains p
  let missed := (missedPlaces result).eraseDups.filter isNew
  let walked := (walkedPlaces t options).eraseDups.filter isNew
  if missed.isEmpty && walked.isEmpty then return t
  let way ← (missed ++ walked).foldlM addWay t
  let grown ← walked.foldlM (fun t p => addDirectory true t p.text) way
  settle options (asked ++ missed ++ walked) grown

def survey (o : Options) (workingDirectory : Path) : IO FileTree := do
  let options := o.projectOptions workingDirectory
  let target : Path ←
    try
      let found ← IO.FS.realPath options.target.text
      pure ⟨if ← found.isDir then found.toString else (found.parent.getD found).toString⟩
    catch _ => return .empty
  let way ← addWay (← addWay .empty options.target) target
  let packages ← target.ancestors.foldlM
    (fun t p => addDirectory true t (p.joinText "node_modules").text) way
  let whole ← addDirectory true packages target.text
  settle options [] whole

def writeBack (before after : FileTree) : IO Unit :=
  (FileTree.changes before after).forM fun (loc, node) => do
    let path := (FileTree.pathOf loc).text
    match node with
    | some (.file content _) =>
      if let some (.link _) := before.node? loc then IO.FS.removeFile path
      IO.FS.writeBinFile path content
    | _ => pure ()

def run (arguments : List String) : IO UInt32 := do
  let workingDirectory : Path := ⟨(← IO.currentDir).toString⟩
  let t ← match Command.ofArguments arguments with
    | .ok (.convert o) => survey o workingDirectory
    | _ => pure .empty
  let a := CommandLine.answer temporaryNames t workingDirectory arguments
  writeBack t a.tree
  (← IO.getStdout).putStr a.output
  (← IO.getStderr).putStr a.log
  return a.code.toUInt32

end ExplicitModules.Program

def main (arguments : List String) : IO UInt32 :=
  ExplicitModules.Program.run arguments
