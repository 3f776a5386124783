import ExplicitModules.FileTree.Content
import ExplicitModules.FileTree.Edit
import ExplicitModules.Text.Quoted

/-!
# Temporary files

A file that is made under a name nothing is there under, filled, and moved in place of another entry
or removed again.
-/
namespace ExplicitModules
set_option autoImplicit false
open ExplicitModules.Path (segments)

inductive TemporaryFault
  | file (path : Path) (e : FileError)
  /-- Something is there under every name that was tried. -/
  | namesTaken (directory : Path)
deriving DecidableEq, Repr

def TemporaryFault.message : TemporaryFault → String
  | .file path e => e.message ++ " at path " ++ Text.quotedPath path.text
  | .namesTaken directory =>
    "too many temporary files exist at path " ++ Text.quotedPath directory.text

namespace FileTree

/-- The place that the last segment of a path names, whether something is there or not. -/
def slot (t : FileTree) (p : Path) : Except FileError Location :=
  if maxPath < Text.utf8Length p.chars ∧ !p.chars.contains '\x00' then .error .nameTooLong
  else if p.chars.contains '\x00' then .error .nulInPath
  else if p.chars = [] then .error .notFound
  else
    match lastSegment p with
    | (none, _) => .error .busy
    | (some ['.'], _) => .error .busy
    | (some ['.', '.'], _) => .error .busy
    | (some _, true) => .error .notDirectory
    | (some last, false) =>
      match t.walkTo true maxLinks [] (segments p.chars).dropLast with
      | .error e => .error e
      | .ok directory =>
        if t.isDirectoryAt directory = false then .error .notDirectory
        else if maxName < Text.utf8Length last then .error .nameTooLong
        else .ok (directory ++ [String.ofList last])

def temporaryMode : Nat := 0o600

/-- An empty file in `directory`, under the first of the names that is not taken. -/
def makeTemporary (t : FileTree) (directory : Path) :
    List String → Except TemporaryFault (Path × FileTree)
  | [] => .error (.namesTaken directory)
  | name :: names =>
    let p := directory.joinText name
    match t.slot p with
    | .error e => .error (.file p e)
    | .ok place =>
      if (t.node? place).isSome then t.makeTemporary directory names
      else .ok (p, t.put place (.file .empty temporaryMode))

def dropAt (t : FileTree) (loc : Location) : FileTree :=
  ⟨t.entries.filter fun entry => entry.1 ≠ loc⟩

def unlink (t : FileTree) (p : Path) : FileTree :=
  match t.locate false p with
  | .ok loc => t.dropAt loc
  | .error _ => t

/-- Moves a file. What is at the target gives way, unless it is a directory. -/
def moveFile (t : FileTree) (source target : Path) : Except FileError FileTree := do
  let start ← t.locate false source
  let place ← t.slot target
  match t.node? start with
  | some (.file content mode) =>
    if t.isDirectoryAt place then .error .isDirectory
    else if place = start then .ok t
    else .ok ((t.put place (.file content mode)).dropAt start)
  | some (.directory _) => .error .isDirectory
  | _ => .error .notFound

end FileTree
end ExplicitModules
