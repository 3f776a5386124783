import ExplicitModules.FileTree.Temporary
import ExplicitModules.Source.Document

/-!
# Saving

A document is saved through a temporary file beside it: the file is made, filled, given the mode of
the one that is to be replaced, and moved there. Every step can fail, and the edited text may turn
out not to exist after the file has been made; then the file is removed.
-/
namespace ExplicitModules.Source
set_option autoImplicit false

inductive SaveFault
  | file (e : FileError)
  /-- An edit starts or stops inside a character, so there is no text to write. -/
  | splitCharacter
deriving DecidableEq, Repr

inductive SaveStop
  | fault (f : SaveFault)
  | temporary (f : TemporaryFault)
deriving DecidableEq, Repr

/-- The tree that a save leaves, and what has stopped it, if anything has. -/
structure Attempt where
  tree : FileTree
  stop : Option SaveStop
deriving DecidableEq

def directoryOf (p : Path) : Path :=
  match p.parent? with
  | none => ⟨"."⟩
  | some directory => if directory.chars = [] then ⟨"."⟩ else directory

namespace Document

def directory (d : Document) : Path :=
  directoryOf d.path

/-- From the empty temporary file at `temporary` on. -/
def fillAndMove (d : Document) (temporary : Path) (mode : Nat) (made : FileTree) : Attempt :=
  match d.render? with
  | none => ⟨made, some (.fault .splitCharacter)⟩
  | some text =>
    match made.write temporary text.toUTF8 with
    | .error e => ⟨made, some (.fault (.file e))⟩
    | .ok written =>
      match written.changeMode temporary mode with
      | .error e => ⟨written, some (.fault (.file e))⟩
      | .ok ready =>
        match ready.moveFile temporary d.path with
        | .error e => ⟨ready, some (.fault (.file e))⟩
        | .ok done => ⟨done, none⟩

def saveThrough (d : Document) (names : List String) (t : FileTree) : Attempt :=
  match t.modeOf d.path with
  | .error e => ⟨t, some (.fault (.file e))⟩
  | .ok mode =>
    match t.makeTemporary d.directory names with
    | .error f => ⟨t, some (.temporary f)⟩
    | .ok (temporary, made) =>
      let attempt := d.fillAndMove temporary mode made
      if attempt.stop = none then attempt
      else ⟨attempt.tree.unlink temporary, attempt.stop⟩

end Document
end ExplicitModules.Source
