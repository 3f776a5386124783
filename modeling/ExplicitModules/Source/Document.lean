import ExplicitModules.FileTree.Content
import ExplicitModules.Source.Scan

/-!
# Source files with pending edits

Edits are spans of the text as it was read, each with the text to put there. They never overlap and
are kept with the last span first, so applying them in that order leaves the spans still to come in
place and the order in which they were requested does not show.
-/
namespace ExplicitModules.Source
set_option autoImplicit false
open Text

/-- The bytes from `start` up to `stop` give way to `text`. -/
structure Edit where
  start : Nat
  stop : Nat
  text : String
deriving DecidableEq, Repr

def Edit.overlaps (a b : Edit) : Bool :=
  decide (a.start < b.stop) && decide (b.start < a.stop)

structure Document where
  path : Path
  text : String
  /-- Pending edits, the last span first. -/
  edits : List Edit
deriving DecidableEq

namespace Document

def ofText (path : Path) (text : String) : Document :=
  ⟨path, text, []⟩

def read (t : FileTree) (path : Path) : Except FileError Document :=
  (t.readText path).map (ofText path)

def declarations (d : Document) : List Declaration :=
  Source.declarations d.text

def isModified (d : Document) : Bool :=
  !d.edits.isEmpty

/-- A span has to lie in the text, not be empty and keep clear of all pending edits. -/
def accepts (d : Document) (e : Edit) : Bool :=
  decide (e.start < e.stop) && decide (e.stop ≤ utf8Length d.text.toList) &&
    d.edits.all fun pending => !pending.overlaps e

def insertEdit (e : Edit) : List Edit → List Edit
  | [] => [e]
  | pending :: rest =>
    if pending.start < e.start then e :: pending :: rest else pending :: insertEdit e rest

def replace? (d : Document) (literal : Literal) (text : String) : Option Document :=
  let e : Edit := ⟨literal.start, literal.stop, text⟩
  if d.accepts e then some { d with edits := insertEdit e d.edits } else none

/-- Applies one edit; there is no result if it cuts through a character. -/
def applyEdit (cs : List Char) (e : Edit) : Option (List Char) := do
  let (front, rest) ← splitAtByte cs e.start
  let (_, back) ← splitAtByte rest (e.stop - e.start)
  return front ++ e.text.toList ++ back

def render? (d : Document) : Option String :=
  (d.edits.foldlM applyEdit d.text.toList).map String.ofList

end Document
end ExplicitModules.Source
