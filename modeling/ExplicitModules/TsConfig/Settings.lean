import ExplicitModules.Path.Basic
import ExplicitModules.TsConfig.Basic

/-!
# Settings in force

Settings of a config together with those it inherits. Patterns and the output directory belong to
the directory of the config that declares them.
-/
namespace ExplicitModules
set_option autoImplicit false

structure Patterns where
  base : Path
  patterns : List String
deriving DecidableEq, Repr

structure Settings where
  files : Option Patterns := none
  includes : Option Patterns := none
  excludes : Option Patterns := none
  allowJs : Option Bool := none
  outDir : Option Path := none
deriving DecidableEq, Repr

namespace Settings

/-- The settings of `child`, and those of `inherited` where `child` has none. -/
def overlay (inherited child : Settings) : Settings where
  files := child.files.or inherited.files
  includes := child.includes.or inherited.includes
  excludes := child.excludes.or inherited.excludes
  allowJs := child.allowJs.or inherited.allowJs
  outDir := child.outDir.or inherited.outDir

def ofConfig (directory : Path) (config : TsConfig) : Settings where
  files := config.files.map (Patterns.mk directory)
  includes := config.includes.map (Patterns.mk directory)
  excludes := config.excludes.map (Patterns.mk directory)
  allowJs := config.compilerOptions.allowJs
  outDir := config.compilerOptions.outDir.map directory.joinText

end Settings
end ExplicitModules
