import ExplicitModules.FileTree.Lookup
import ExplicitModules.Specifier

/-!
# Replacements

What a relative specifier is replaced by. A specifier without an extension becomes the first of four
candidate files that is there; one that names JSON data gets an import attribute; all others stay.
-/
namespace ExplicitModules
set_option autoImplicit false

/-- The shape of a replaced specifier. -/
inductive Form
  | module
  | component
  | index
  | indexComponent
  | json
deriving DecidableEq, Repr

def Form.suffix : Form → String
  | .module => ".js"
  | .component => ".jsx"
  | .index => "/index.js"
  | .indexComponent => "/index.jsx"
  | .json => ".json"

structure Replacement where
  form : Form
  specifier : String
deriving DecidableEq, Repr

/-- A file to look for, and the form of the specifier if it is there. -/
structure Candidate where
  path : Path
  form : Form
deriving DecidableEq, Repr

namespace Replacement

def ofForm (s : Specifier) (form : Form) : Replacement :=
  ⟨form, s.stem ++ form.suffix⟩

def render (r : Replacement) (quote : Char) : String :=
  let q := String.singleton quote
  match r.form with
  | .json => q ++ r.specifier ++ q ++ " with \x7b type: " ++ q ++ "json" ++ q ++ " \x7d"
  | _ => q ++ r.specifier ++ q

def aliasEndings : List (String × Form) :=
  [(".ts", .module), (".tsx", .component), ("/index.ts", .index), ("/index.tsx", .indexComponent)]

/-- Endings of candidate files beside the importing file. Here an index component comes first. -/
def relativeEndings : List (String × Form) :=
  [(".ts", .module), (".tsx", .component), ("/index.tsx", .indexComponent), ("/index.ts", .index)]

def candidatesAt (base : Path) (text : String) (endings : List (String × Form)) : List Candidate :=
  endings.map fun ending => ⟨base.joinText (text ++ ending.1), ending.2⟩

def aliasDirectory (root : Path) : Path :=
  root.joinText "src"

def candidates (root : Path) (s : Specifier) : List Candidate :=
  if s.isAlias then
    candidatesAt (aliasDirectory root) (String.ofList (s.stem.toList.drop Specifier.aliasMark.length))
      aliasEndings
  else candidatesAt s.directory s.stem relativeEndings

/-- A decision with the paths that were looked for and are no files. -/
structure Decision where
  replacement : Option Replacement
  tried : List Path
deriving DecidableEq, Repr

def probe (t : FileTree) (s : Specifier) (cs : List Candidate) : Decision where
  replacement := (cs.find? fun c => t.isFile c.path).map fun c => ofForm s c.form
  tried := (cs.takeWhile fun c => !t.isFile c.path).map Candidate.path

/-- Decides about `s` in a project at `root`; `hasAttributes` tells whether an attribute clause
follows it. -/
def decisionFor (t : FileTree) (root : Path) (s : Specifier) (hasAttributes : Bool) : Decision :=
  if hasAttributes || !s.isRelative then ⟨none, []⟩
  else if s.extension = ".json" then ⟨some (ofForm s .json), []⟩
  else if s.extension = "" then probe t s (candidates root s)
  else ⟨none, []⟩

end Replacement
end ExplicitModules
