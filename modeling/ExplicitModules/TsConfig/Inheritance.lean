import ExplicitModules.Fault
import ExplicitModules.TsConfig.Settings

/-!
# Configs that extend others

A config starts from the settings of the configs it extends, in order, and lays its own over them.
Following these links ends: a config that is met again below itself is a fault, and a tree has only
so many files.
-/
namespace ExplicitModules.TsConfig
set_option autoImplicit false

/-- The path with `.json` appended, unless that is its extension already. -/
def withJson? (p : Path) : Option Path :=
  if p.extension? = some "json" then none else some (Path.ofChars (p.chars ++ ".json".toList))

/-- A spec with a dot in front or an absolute one is a path; others name a package. -/
def isPathSpec (spec : String) : Bool :=
  spec.toList.head? == some '.' || Path.isAbsolute ⟨spec⟩

def packageCandidates (spec : String) (directory : Path) : List Path :=
  let base := (directory.joinText "node_modules").joinText spec
  base :: (withJson? base).toList ++ [base.joinText "tsconfig.json"]

/-- The config that `spec` stands for in a config in `directory`. A path that leads to no file is
tried with `.json` behind it; packages are looked for from `directory` upwards. -/
def locateBase (t : FileTree) (directory : Path) (spec : String) : Except Fault Path :=
  if isPathSpec spec then
    let path := directory.joinText spec
    if t.isFile path then .ok path else .ok ((withJson? path).getD path)
  else
    match (directory.ancestors.flatMap (packageCandidates spec)).find? t.isFile with
    | some path => .ok path
    | none => .error (.configUnreadable (directory.joinText spec) (.noPackage spec))

def unvisited (t : FileTree) (chain : List Location) : Nat :=
  ((t.entries.map Prod.fst).filter fun loc => !chain.contains loc).length

theorem unvisited_cons_lt {t : FileTree} {chain : List Location} {loc : Location}
    (hTree : loc ∈ t.entries.map Prod.fst) (hNew : loc ∉ chain) :
    unvisited t (loc :: chain) < unvisited t chain := by
  unfold unvisited
  generalize t.entries.map Prod.fst = locations at hTree
  have hFilter : (locations.filter fun l => !(loc :: chain).contains l) =
      (locations.filter fun l => !chain.contains l).filter fun l => !(l == loc) := by
    rw [List.filter_filter]
    congr 1
    funext l
    by_cases hL : l = loc <;> simp [hL]
  rw [hFilter, List.length_filter_lt_length_iff_exists]
  exact ⟨loc, by simp [hTree, hNew], by simp⟩

def parse (path : Path) (text : String) : Except Fault TsConfig :=
  (TsConfig.ofText text).mapError (.configMalformed path)

/-- The settings in force at `path`; `chain` holds the configs on the way to it. -/
def resolve (t : FileTree) (chain : List Location) (path : Path) : Except Fault Settings :=
  match t.resolved path with
  | .error e => .error (.configUnreadable path (.file e))
  | .ok loc =>
    let canonical := FileTree.pathOf loc
    if _hNew : loc ∈ chain then .error (.extendsCycle canonical)
    else
      match _hText : t.textAt loc with
      | .error e => .error (.configUnreadable canonical (.file e))
      | .ok text => do
        let config ← parse canonical text
        let directory := canonical.parent?.getD ⟨"/"⟩
        let specs := (config.bases.map Extends.specs).getD []
        let inherited ← specs.foldlM (fun (settings : Settings) spec => do
          let base ← locateBase t directory spec
          let parent ← resolve t (loc :: chain) base
          return settings.overlay parent) ({} : Settings)
        return inherited.overlay (.ofConfig directory config)
termination_by unvisited t chain
decreasing_by exact unvisited_cons_lt (FileTree.mem_entries_of_textAt _hText) _hNew

def load (t : FileTree) (path : Path) : Except Fault Settings :=
  resolve t [] path

end ExplicitModules.TsConfig
