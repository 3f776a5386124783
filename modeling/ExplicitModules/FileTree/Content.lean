import ExplicitModules.FileTree.Lookup

/-!
# Reading files

The content of a file and its mode, and the last segment of a path, which names the place of an entry.
-/
namespace ExplicitModules
set_option autoImplicit false
open ExplicitModules.Path (segments isTrivial)

def Node.mode : Node → Nat
  | .file _ mode => mode
  | .directory mode => mode
  | .link _ => 0o777

namespace FileTree

def contentAt (t : FileTree) (loc : Location) : Except FileError ByteArray :=
  match t.node? loc with
  | some (.file content _) => .ok content
  | some (.directory _) => .error .isDirectory
  | _ => .error .notFound

def textAt (t : FileTree) (loc : Location) : Except FileError String := do
  let content ← t.contentAt loc
  match String.fromUTF8? content with
  | some text => .ok text
  | none => .error .notText

def readText (t : FileTree) (p : Path) : Except FileError String := do
  t.textAt (← t.locate true p)

theorem mem_entries_of_textAt {t : FileTree} {loc : Location} {text : String}
    (h : t.textAt loc = .ok text) : loc ∈ t.entries.map Prod.fst := by
  unfold textAt contentAt at h
  split at h
  · rename_i content mode hNode
    unfold node? at hNode
    split at hNode
    · cases hNode
    · obtain ⟨front, back, hEntries, -⟩ := List.lookup_eq_some_iff.mp hNode
      rw [hEntries]
      simp
  · cases h
  · cases h

def modeOf (t : FileTree) (p : Path) : Except FileError Nat := do
  let loc ← t.locate true p
  match t.node? loc with
  | some node => .ok node.mode
  | none => .error .notFound

/-- What a path ends in, trailing slashes aside; the flag tells whether there are any. -/
def lastSegment (p : Path) : Option (List Char) × Bool :=
  let segs := (segments p.chars).reverse
  ((segs.dropWhile List.isEmpty).head?, segs.head? == some [])

end FileTree
end ExplicitModules
