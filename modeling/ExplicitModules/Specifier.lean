import ExplicitModules.Path.Basic

/-!
# Module specifiers

A specifier is taken apart by its text alone: whether it is relative, and which extension its last
segment ends in. The two parts of the split always give back the text.
-/
namespace ExplicitModules
set_option autoImplicit false

/-- A specifier together with the directory of the file it is written in. -/
structure Specifier where
  written : String
  isRelative : Bool
  directory : Path
  /-- The text without its extension. -/
  stem : String
  /-- A recognised extension with its dot, or nothing. -/
  extension : String
deriving DecidableEq, Repr

namespace Specifier

/-- Stands for the source directory of the project. -/
def aliasMark : List Char := ['~', '/']

def relativeMarks : List (List Char) :=
  [['.', '/'], ['.', '.', '/'], aliasMark]

/-- An extension that names a script or data; a source extension is part of the stem. -/
def extensions : List (List Char) :=
  [".json".toList, ".js".toList, ".jsx".toList, ".mjs".toList, ".cjs".toList]

def isAlias (s : Specifier) : Bool :=
  aliasMark.isPrefixOf s.stem.toList

/-- A name that is only an extension, or has a dot in front of it, does not carry it. -/
def carries (segment extension : List Char) : Bool :=
  let name := segment.take (segment.length - extension.length)
  extension.isSuffixOf segment && name != [] && name.getLast? != some '.'

/-- The text in front of the first extension in `order` that its last segment carries, and that
extension. -/
def splitInOrder (order : List (List Char)) (text : List Char) : List Char × List Char :=
  match order.find? (carries (Path.lastSegment text)) with
  | some extension => (text.take (text.length - extension.length), extension)
  | none => (text, [])

def splitExtension (text : List Char) : List Char × List Char :=
  splitInOrder extensions text

def ofText (file : Path) (text : String) : Specifier where
  written := text
  isRelative := relativeMarks.any fun mark => mark.isPrefixOf text.toList
  directory := file.parent?.getD ⟨""⟩
  stem := String.ofList (splitExtension text.toList).1
  extension := String.ofList (splitExtension text.toList).2

end Specifier
end ExplicitModules
