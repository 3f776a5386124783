import ExplicitModules.Fault
import ExplicitModules.Glob.Matching
import ExplicitModules.Path.Order
import ExplicitModules.TsConfig.Settings

/-!
# Source files of a project

The files listed by name, and the files below the literal part of each include pattern that match it
and no exclusion. Walking leaves out hidden and package directories and whatever is excluded, and
nothing is collected if a walk fails. The result is ordered and names no path twice.
-/
namespace ExplicitModules.Project
set_option autoImplicit false
open Glob (Pattern)

def typedExtensions : List String :=
  ["ts", "tsx", "mts", "cts"]

def scriptExtensions : List String :=
  ["js", "jsx", "mjs", "cjs"]

/-- Directories of packages, which no pattern enters. -/
def packageDirectories : List String :=
  ["node_modules", "bower_components", "jspm_packages"]

def hasSourceExtension (allowJs : Bool) (p : Path) : Bool :=
  match p.extension? with
  | none => false
  | some e => typedExtensions.contains e || (allowJs && scriptExtensions.contains e)

/-- A pattern that matches the path literally. -/
def escapedPath (p : Path) : List Char :=
  Glob.escape (p.chars.map fun c => if c = '\\' then '/' else c)

/-- Removes every `./` in front. -/
def trimStart : List Char → List Char
  | '.' :: '/' :: cs => trimStart cs
  | cs => cs

def trimSlashes (cs : List Char) : List Char :=
  (cs.reverse.dropWhile (· == '/')).reverse

/-- Selects everything below what it is appended to. -/
def everythingBelow : List Char :=
  "/**/*".toList

/-- A pattern anchored at `base`, before a directory name is taken for what is in it. -/
def anchored (base : Path) (pattern : String) : List Char :=
  let trimmed := trimSlashes (trimStart pattern.toList)
  if trimmed = [] ∨ trimmed = ['.'] then escapedPath base
  else escapedPath base ++ '/' :: trimmed

/-- The text of a pattern anchored at `base`; the plain name of a directory means all below it. -/
def absolutePattern (t : FileTree) (base : Path) (pattern : String) : List Char :=
  let trimmed := trimSlashes (trimStart pattern.toList)
  let text := anchored base pattern
  if !trimmed.any Glob.isWildcard && t.isDirectory (Path.ofChars text) then
    text ++ everythingBelow
  else text

/-- One more segment of the directory in which a pattern is looked for; an empty one leads back to
the root. -/
def extendPrefix (p : Path) (segment : List Char) : Path :=
  p.join (if segment = [] then ⟨"/"⟩ else Path.ofChars segment)

/-- The path that the leading segments without wildcards make up. -/
def literalPrefix (pattern : List Char) : Path :=
  ((Path.segments pattern).takeWhile fun s => !s.any Glob.isWildcard).foldl extendPrefix ⟨""⟩

/-- Exclusions as written, or package directories and the output directory where none are. -/
def exclusionTexts (t : FileTree) (root : Path) (settings : Settings) : List (List Char) :=
  match settings.excludes with
  | some excludes => excludes.patterns.map (absolutePattern t excludes.base)
  | none =>
    packageDirectories.map (absolutePattern t root) ++ (settings.outDir.map escapedPath).toList

/-- The exclusions in force: with each one, everything below what it matches. -/
def exclusions (t : FileTree) (root : Path) (settings : Settings) : List Pattern :=
  let texts := exclusionTexts t root settings
  (texts ++ texts.map (· ++ everythingBelow)).filterMap Pattern.ofText?

def isExcluded (excluded : List Pattern) (p : Path) : Bool :=
  excluded.any fun pattern => pattern.matchesText p.chars

def isSkippedName (name : String) : Bool :=
  name.toList.head? == some '.' || packageDirectories.contains name

def isKept (excluded : List Pattern) (e : WalkEntry) : Bool :=
  !(e.isDirectory && isSkippedName e.name) && !isExcluded excluded e.path

def isSelected (allowJs : Bool) (compiled : Pattern) (e : WalkEntry) : Bool :=
  e.isFile && hasSourceExtension allowJs e.path && compiled.matchesText e.path.chars

def includedFiles (t : FileTree) (allowJs : Bool) (excluded : List Pattern) (base : Path)
    (pattern : String) : Except Fault (List Path) :=
  let text := absolutePattern t base pattern
  match Pattern.ofText? text with
  | none => .ok []
  | some compiled =>
    let root := literalPrefix text
    if t.isPresent root then do
      let entries ← (t.walk (isKept excluded) root).mapError (.walkFailed root)
      return (entries.filter (isSelected allowJs compiled)).map WalkEntry.path
    else .ok []

def listedFiles (t : FileTree) (files : Patterns) : Except Fault (List Path) :=
  (files.patterns.map files.base.joinText).mapM fun path =>
    if t.isFile path then .ok path else .error (.listedFileMissing path)

/-- Includes in force: without any setting, everything below the root. -/
def includesInForce (root : Path) (settings : Settings) : Patterns :=
  match settings.includes, settings.files with
  | some includes, _ => includes
  | none, some _ => ⟨root, []⟩
  | none, none => ⟨root, ["**/*"]⟩

def collectFiles (t : FileTree) (root : Path) (settings : Settings) : Except Fault (List Path) := do
  let listed ← match settings.files with
    | some files => listedFiles t files
    | none => .ok []
  let includes := includesInForce root settings
  let selected ← includes.patterns.mapM
    (includedFiles t (settings.allowJs.getD false) (exclusions t root settings) includes.base)
  return (listed ++ selected.flatten).foldl (fun paths p => p.insert paths) []

end ExplicitModules.Project
