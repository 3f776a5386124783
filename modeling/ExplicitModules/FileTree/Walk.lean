import ExplicitModules.FileTree.Lookup

/-!
# Walking a directory

The entries below a directory, pruned: an entry that is not kept is left out with everything below
it. Links are listed and never entered, apart from the place where the walk starts. A directory is
opened under the path it is shown as, and the walk ends in a fault where that path is too long.
-/
namespace ExplicitModules
set_option autoImplicit false

/-- Something met on a walk: the path it is shown under, its name and what is there. -/
structure WalkEntry where
  path : Path
  name : String
  node : Node

namespace WalkEntry

def isDirectory (e : WalkEntry) : Bool :=
  match e.node with
  | .directory _ => true
  | _ => false

def isFile (e : WalkEntry) : Bool :=
  match e.node with
  | .file _ _ => true
  | _ => false

def isOutOfReach (e : WalkEntry) : Bool :=
  e.isDirectory && decide (FileTree.maxPath < Text.utf8Length e.path.chars)

end WalkEntry

structure WalkFault where
  path : Path
  cause : FileError
deriving DecidableEq, Repr

def WalkFault.message (f : WalkFault) : String :=
  "IO error for operation on " ++ f.path.text ++ ": " ++ f.cause.message

namespace FileTree

def childEntry? (t : FileTree) (loc : Location) (shown : Path) (name : String) : Option WalkEntry :=
  (t.node? (loc ++ [name])).map fun node => ⟨shown.joinText name, name, node⟩

def insertName (name : String) : List String → List String
  | [] => [name]
  | other :: names =>
    if name ≤ other then name :: other :: names else other :: insertName name names

def sortedChildren (t : FileTree) (loc : Location) : List String :=
  (t.children loc).foldr insertName []

theorem mem_insertName {name other : String} {names : List String} :
    other ∈ insertName name names ↔ other = name ∨ other ∈ names := by
  induction names with
  | nil => simp [insertName]
  | cons first names ih =>
    rw [insertName]
    split
    · rw [List.mem_cons]
    · rw [List.mem_cons, List.mem_cons, ih, or_left_comm]

theorem mem_sortedChildren {t : FileTree} {loc : Location} {name : String} :
    name ∈ t.sortedChildren loc ↔ name ∈ t.children loc := by
  rw [sortedChildren]
  induction t.children loc with
  | nil => rfl
  | cons first names ih => rw [List.foldr_cons, mem_insertName, ih, List.mem_cons]

/-- The entries that a walk comes to below `loc`, whatever the length of their paths. -/
def walkBelow (t : FileTree) (keep : WalkEntry → Bool) (loc : Location) (shown : Path) :
    List WalkEntry :=
  (t.sortedChildren loc).attach.flatMap fun ⟨name, _hName⟩ =>
    match t.childEntry? loc shown name with
    | none => []
    | some entry =>
      if keep entry then
        if entry.isDirectory then entry :: walkBelow t keep (loc ++ [name]) entry.path
        else [entry]
      else []
termination_by t.height - loc.length
decreasing_by
  have hDepth := length_lt_height_of_mem_children (mem_sortedChildren.mp _hName)
  simp only [List.length_append, List.length_singleton]
  omega

/-- The entries that a walk from `root` comes to. The root is listed itself and not subject to `keep`;
a link to a directory is entered here, and the paths below it go on from the link. -/
def entriesFrom (t : FileTree) (keep : WalkEntry → Bool) (root : Path) : List WalkEntry :=
  match t.locate false root with
  | .error _ => []
  | .ok loc =>
    let first := (t.node? loc).map fun node => ⟨root, root.fileName?.getD "", node⟩
    let below :=
      match t.locate true root with
      | .ok target => if t.isDirectoryAt target then t.walkBelow keep target root else []
      | .error _ => []
    first.toList ++ below

/-- The walk from `root`, up to the first directory that cannot be opened. -/
def walk (t : FileTree) (keep : WalkEntry → Bool) (root : Path) :
    Except WalkFault (List WalkEntry) :=
  let entries := t.entriesFrom keep root
  match entries.find? WalkEntry.isOutOfReach with
  | some e => .error ⟨e.path, .nameTooLong⟩
  | none => .ok entries

end FileTree
end ExplicitModules
