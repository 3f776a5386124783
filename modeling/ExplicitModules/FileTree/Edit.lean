import ExplicitModules.FileTree.Lookup

/-!
# Building and comparing trees

Creating and removing entries, with the directories above made on the way, and the list of what two
trees disagree on.
-/
namespace ExplicitModules
set_option autoImplicit false
open ExplicitModules.Path (segments isTrivial)

namespace FileTree

/-- The node at a location is the same node in both trees or missing from both. -/
def agreeAt (t u : FileTree) (loc : Location) : Bool :=
  decide (t.node? loc = u.node? loc)

/-- One step down from a directory, which is made if nothing is there; a link is followed. -/
def enter (t : FileTree) (loc : Location) (segment : List Char) :
    Except FileError (FileTree × Location) :=
  if isTrivial segment then .ok (t, loc)
  else if segment = ['.', '.'] then .ok (t, loc.dropLast)
  else
    let next := loc ++ [String.ofList segment]
    match t.node? next with
    | none => .ok (t.put next (.directory directoryMode), next)
    | some _ => (t.walkTo true maxLinks loc [segment, []]).map fun found => (t, found)

/-- Makes every directory on the way and returns the location of the last. -/
def makeWay (t : FileTree) (segs : List (List Char)) : Except FileError (FileTree × Location) :=
  segs.foldlM (fun found segment => enter found.1 found.2 segment) (t, [])

def steps (p : Path) : List (List Char) :=
  (segments p.chars).filter fun segment => !isTrivial segment

def create (t : FileTree) (p : Path) (node : Node) : Except FileError FileTree := do
  match (steps p).getLast? with
  | none => .error .isDirectory
  | some last =>
    let (made, loc) ← t.makeWay (steps p).dropLast
    .ok (made.put (loc ++ [String.ofList last]) node)

def makeDirectory (t : FileTree) (p : Path) : Except FileError FileTree :=
  (t.makeWay (steps p)).map Prod.fst

/-- What the path itself is, a link not followed. -/
def entryAt? (t : FileTree) (p : Path) : Option Node :=
  match t.locate false p with
  | .ok loc => t.node? loc
  | .error _ => none

/-- Where a file written at `p` comes to be: a link is followed, also one to something that is
missing; `links` more links may be met. -/
def destination (t : FileTree) (links : Nat) (p : Path) : Path :=
  match links, t.entryAt? p with
  | links + 1, some (.link target) =>
    t.destination links ((p.parent?.getD ⟨""⟩).joinText target)
  | _, _ => p

/-- Writes a file. One that exists keeps its mode, and a link is followed. -/
def write (t : FileTree) (p : Path) (content : ByteArray) : Except FileError FileTree :=
  match t.locate true p with
  | .ok loc =>
    match t.node? loc with
    | some (.file _ mode) => .ok (t.put loc (.file content mode))
    | _ => .error .isDirectory
  | .error _ => t.create (t.destination maxLinks p) (.file content fileMode)

def changeMode (t : FileTree) (p : Path) (mode : Nat) : Except FileError FileTree := do
  let loc ← t.locate true p
  match t.node? loc with
  | some (.file content _) => .ok (t.put loc (.file content mode))
  | some (.directory _) => .ok (t.put loc (.directory mode))
  | _ => .error .notFound

/-- Removes what `p` leads to, the link itself if it is one; the flag tells whether it was there. -/
def remove (t : FileTree) (p : Path) : FileTree × Bool :=
  match t.locate false p with
  | .ok loc => (t.erase loc, true)
  | .error _ => (t, false)

def changes (before after : FileTree) : List (Location × Option Node) :=
  let locations := ((before.entries ++ after.entries).map Prod.fst).eraseDups
  (locations.filter fun loc => !agreeAt before after loc).map fun loc => (loc, after.node? loc)

end FileTree
end ExplicitModules
