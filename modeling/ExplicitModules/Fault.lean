import ExplicitModules.FileTree.Walk
import ExplicitModules.Source.Saving
import ExplicitModules.TsConfig.Basic

/-!
# Faults

Everything that makes loading or converting a project fail, and the wording of each.
-/
namespace ExplicitModules
set_option autoImplicit false

inductive UnreadableCause
  | file (e : FileError)
  /-- No package has the config that another one extends. -/
  | noPackage (spec : String)
deriving DecidableEq, Repr

def UnreadableCause.message : UnreadableCause → String
  | .file e => e.message
  | .noPackage spec => "extended config '" ++ spec ++ "' not found"

inductive Fault
  | file (e : FileError)
  | configUnreadable (path : Path) (cause : UnreadableCause)
  | configMalformed (path : Path) (cause : ConfigFault)
  | extendsCycle (path : Path)
  | projectNotFound (start : Path)
  | listedFileMissing (path : Path)
  | walkFailed (root : Path) (cause : WalkFault)
  | temporary (cause : TemporaryFault)
  | splitCharacter
deriving DecidableEq, Repr

def Fault.message : Fault → String
  | .file e => "IO error: " ++ e.message
  | .configUnreadable path cause =>
    "Failed to read config at " ++ path.text ++ ": " ++ cause.message
  | .configMalformed path cause =>
    "Failed to parse config at " ++ path.text ++ ": " ++ cause.message
  | .extendsCycle path => "Circular extends chain detected at " ++ path.text
  | .projectNotFound start => "no root directory path found from " ++ start.text
  | .listedFileMissing path => "File '" ++ path.text ++ "' not found"
  | .walkFailed root cause => "Failed to walk " ++ root.text ++ ": " ++ cause.message
  | .temporary cause => "IO error: " ++ cause.message
  | .splitCharacter => "an edit cuts through a character"

def Fault.ofSaveStop : Source.SaveStop → Fault
  | .fault (.file e) => .file e
  | .fault .splitCharacter => .splitCharacter
  | .temporary cause => .temporary cause

end ExplicitModules
