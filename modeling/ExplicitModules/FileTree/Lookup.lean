import ExplicitModules.FileTree.Basic
import ExplicitModules.Path.Basic
import ExplicitModules.Text.Offset

/-!
# Looking up paths

A path is followed from the root, segment by segment. Every segment, also an empty one or a dot,
asks for a directory in front of it; a link is replaced by the path it holds, at most forty times.
Names and paths may not be longer than a file system takes. The canonical path of an entry is found
by looking up one entry after the other under its own canonical path, so those count and the path
at the start may be of any length.
-/
namespace ExplicitModules
set_option autoImplicit false
open ExplicitModules.Path (segments isTrivial)

inductive FileError
  | notFound
  | notDirectory
  | isDirectory
  | tooManyLinks
  | nameTooLong
  | busy
  | notText
  | nulInPath
deriving DecidableEq, Repr

namespace FileError

def message : FileError → String
  | .notFound => "No such file or directory (os error 2)"
  | .notDirectory => "Not a directory (os error 20)"
  | .isDirectory => "Is a directory (os error 21)"
  | .tooManyLinks => "Too many levels of symbolic links (os error 40)"
  | .nameTooLong => "File name too long (os error 36)"
  | .busy => "Device or resource busy (os error 16)"
  | .notText => "stream did not contain valid UTF-8"
  | .nulInPath => "file name contained an unexpected NUL byte"

end FileError

namespace FileTree

def maxLinks : Nat := 40

def maxName : Nat := 255

/-- Bytes of the longest path that is looked up as a whole. -/
def maxPath : Nat := 4095

/-- One segment on from `current`: the location it names and, if a link is there, what that holds. -/
def stepTo (t : FileTree) (current : Location) (segment : List Char) :
    Except FileError (Location × Option String) :=
  if t.isDirectoryAt current then
    if isTrivial segment then .ok (current, none)
    else if segment = ['.', '.'] then .ok (current.dropLast, none)
    else if maxName < Text.utf8Length segment then .error .nameTooLong
    else
      let next := current ++ [String.ofList segment]
      match t.node? next with
      | none => .error .notFound
      | some (.link target) => .ok (next, some target)
      | some _ => .ok (next, none)
  else .error .notDirectory

def linkStart (current : Location) (target : String) : Location :=
  if target.toList.head? = some '/' then [] else current

/-- Follows `pending` from the location `current` up to a link that has to be followed, where
`behindLink` takes over. With `follow` a link at the very end is followed too. -/
def walkWith (t : FileTree) (follow : Bool)
    (behindLink : Location → List (List Char) → Except FileError Location) :
    Location → List (List Char) → Except FileError Location
  | current, [] => .ok current
  | current, segment :: rest =>
    match t.stepTo current segment with
    | .error e => .error e
    | .ok (next, none) => walkWith t follow behindLink next rest
    | .ok (next, some target) =>
      if rest = [] ∧ follow = false then .ok next
      else behindLink (linkStart current target) (segments target.toList ++ rest)

/-- Follows `pending` from the location `current`; `links` more links may be met. -/
def walkTo (t : FileTree) (follow : Bool) :
    (links : Nat) → Location → List (List Char) → Except FileError Location
  | 0 => walkWith t follow fun _ _ => .error .tooManyLinks
  | links + 1 => walkWith t follow (walkTo t follow links)

/-- The location a path of any length leads to. Links on the way are followed, and one at the end if
`follow`. -/
def trace (t : FileTree) (follow : Bool) (p : Path) : Except FileError Location :=
  if p.chars.contains '\x00' then .error .nulInPath
  else if p.chars = [] then .error .notFound
  else walkTo t follow maxLinks [] (segments p.chars)

/-- The location a path leads to, unless the path is too long. -/
def locate (t : FileTree) (follow : Bool) (p : Path) : Except FileError Location :=
  if maxPath < Text.utf8Length p.chars ∧ !p.chars.contains '\x00' then .error .nameTooLong
  else t.trace follow p

/-- What a path leads to when all links are followed. -/
def nodeOf? (t : FileTree) (p : Path) : Option Node :=
  match t.locate true p with
  | .ok loc => t.node? loc
  | .error _ => none

def isFile (t : FileTree) (p : Path) : Bool :=
  match t.nodeOf? p with
  | some (.file _ _) => true
  | _ => false

def isDirectory (t : FileTree) (p : Path) : Bool :=
  match t.nodeOf? p with
  | some (.directory _) => true
  | _ => false

def isPresent (t : FileTree) (p : Path) : Bool :=
  (t.nodeOf? p).isSome

def pathOf (loc : Location) : Path :=
  if loc = [] then ⟨"/"⟩ else ⟨String.join (loc.map fun name => "/" ++ name)⟩

/-- Whether what comes behind a name takes for granted that a directory is there: trailing slashes,
or two dots as the first thing that is not passed over. -/
def asksForDirectory (rest : List (List Char)) : Bool :=
  match rest.dropWhile isTrivial with
  | [] => !rest.isEmpty
  | segment :: _ => segment == ['.', '.']

/-- Whether the canonical path of the entry that `segment` names is too long to be looked up. With a
directory asked for, a slash comes behind it, unless the entry is a link. -/
def isOverlong (t : FileTree) (current : Location) (segment : List Char)
    (rest : List (List Char)) : Bool :=
  let length := Text.utf8Length (pathOf (current ++ [String.ofList segment])).chars
  if isTrivial segment || segment == ['.', '.'] then false
  else
    match t.stepTo current segment with
    | .ok (_, some _) => decide (maxPath < length)
    | _ => decide (maxPath < length + if asksForDirectory rest then 1 else 0)

/-- Whether an overlong entry is met on the way, on which `behindLink` takes over at the first link. -/
def overrunsWith (t : FileTree) (behindLink : Location → List (List Char) → Bool) :
    Location → List (List Char) → Bool
  | _, [] => false
  | current, segment :: rest =>
    t.isOverlong current segment rest ||
      match t.stepTo current segment with
      | .error _ => false
      | .ok (next, none) => overrunsWith t behindLink next rest
      | .ok (_, some target) => behindLink (linkStart current target) (segments target.toList ++ rest)

def overruns (t : FileTree) : (links : Nat) → Location → List (List Char) → Bool
  | 0 => overrunsWith t fun _ _ => false
  | links + 1 => overrunsWith t (overruns t links)

/-- The location a path leads to, if no entry on the way is overlong. -/
def resolved (t : FileTree) (p : Path) : Except FileError Location :=
  if !p.chars.contains '\x00' ∧ t.overruns maxLinks [] (segments p.chars) then .error .nameTooLong
  else t.trace true p

/-- The path without links, dots and repeated slashes that leads to the same node. -/
def canonical (t : FileTree) (p : Path) : Except FileError Path :=
  (t.resolved p).map pathOf

end FileTree
end ExplicitModules
