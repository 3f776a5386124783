import ExplicitModules.Project.Files
import ExplicitModules.TsConfig.Inheritance

/-!
# Projects

A project is named by a directory or by a config in it. Loading finds its root, its config, if there
is one, and its source files; nothing is changed.
-/
namespace ExplicitModules
set_option autoImplicit false

structure ProjectOptions where
  /-- The directory that a relative name starts from. -/
  directory : Path
  /-- A config or a directory; without a name, the directory itself. -/
  project : Option Path := none
deriving DecidableEq, Repr

def ProjectOptions.target (options : ProjectOptions) : Path :=
  match options.project with
  | some p => options.directory.join p
  | none => options.directory

structure Project where
  root : Path
  config : Option Path
  sourceFiles : List Path
deriving DecidableEq, Repr

namespace Project

def configName : String := "tsconfig.json"

def rootAndConfig (t : FileTree) (target : Path) : Except Fault (Path × Option Path) :=
  if t.isDirectory target then
    let config := target.joinText configName
    .ok (target, if t.isFile config then some config else none)
  else
    match target.parent? with
    | some root => .ok (root, some target)
    | none => .error (.projectNotFound target)

def load (t : FileTree) (options : ProjectOptions) : Except Fault Project := do
  let target ← (t.canonical options.target).mapError fun _ => Fault.projectNotFound options.target
  let (root, config) ← rootAndConfig t target
  let settings ← match config with
    | some path => TsConfig.load t path
    | none => .ok {}
  let sourceFiles ← collectFiles t root settings
  return { root, config, sourceFiles }

end Project
end ExplicitModules
