import ExplicitModules.Path.Segments

/-!
# Paths

A path is kept as it is spelled. What it means is its list of components, in which repeated slashes
and dots behind the first component do not count while two dots do; paths are ordered and taken to
be the same by their components.
-/
namespace ExplicitModules
set_option autoImplicit false

structure Path where
  text : String
deriving DecidableEq, Repr, Inhabited

namespace Path

inductive Component
  | root
  | current
  | parent
  | name (n : String)
deriving DecidableEq, Repr

def ofChars (cs : List Char) : Path :=
  ⟨String.ofList cs⟩

def chars (p : Path) : List Char :=
  p.text.toList

@[simp] theorem chars_ofChars (cs : List Char) : (ofChars cs).chars = cs := by
  simp [ofChars, chars]

@[simp] theorem ofChars_chars (p : Path) : ofChars p.chars = p := by
  simp [ofChars, chars]

def isAbsolute (p : Path) : Bool :=
  p.chars.head? == some '/'

/-- An empty segment or a dot names nothing. -/
def isTrivial (segment : List Char) : Bool :=
  segment == [] || segment == ['.']

def componentOf (segment : List Char) : Component :=
  if segment = ['.', '.'] then .parent else .name (String.ofList segment)

/-- The leading slash or dot of a path, which is a component of its own, and the text behind. -/
def splitLead : List Char → List Char × List Char
  | '/' :: cs => (['/'], cs)
  | ['.'] => (['.'], [])
  | '.' :: '/' :: cs => (['.'], '/' :: cs)
  | cs => ([], cs)

def leadComponents (lead : List Char) : List Component :=
  if lead = ['/'] then [.root] else if lead = ['.'] then [.current] else []

def components (p : Path) : List Component :=
  let (lead, body) := splitLead p.chars
  leadComponents lead ++ ((segments body).filter fun s => !isTrivial s).map componentOf

/-- Removes segments from the end up to the last one that names something. -/
def trimEnd (segs : List (List Char)) : List (List Char) :=
  (segs.reverse.dropWhile isTrivial).reverse

/-- The path without its last component; the root and the empty path have no parent. -/
def parent? (p : Path) : Option Path :=
  let (lead, body) := splitLead p.chars
  match trimEnd (segments body) with
  | [] => if lead = ['.'] then some ⟨""⟩ else none
  | segs => some (ofChars (lead ++ joinSegments (trimEnd segs.dropLast)))

def fileName? (p : Path) : Option String :=
  match p.components.getLast? with
  | some (.name n) => some n
  | _ => none

/-- The part of a file name behind its last dot, unless that dot starts the name. -/
def extension? (p : Path) : Option String :=
  p.fileName?.bind fun n =>
    let tail := n.toList.reverse.takeWhile (· != '.')
    if tail.length + 1 < n.toList.length then some (String.ofList tail.reverse) else none

/-- `p` followed by `q`; an absolute `q` stands alone. -/
def join (p q : Path) : Path :=
  if q.isAbsolute then q
  else if p.chars = [] ∨ p.chars.getLast? = some '/' then ofChars (p.chars ++ q.chars)
  else ofChars (p.chars ++ '/' :: q.chars)

def joinText (p : Path) (text : String) : Path :=
  p.join ⟨text⟩

@[simp] theorem splitLead_append (cs : List Char) : (splitLead cs).1 ++ (splitLead cs).2 = cs := by
  unfold splitLead
  split <;> rfl

theorem prefix_trimEnd (segs : List (List Char)) : trimEnd segs <+: segs := by
  unfold trimEnd
  rw [← List.reverse_suffix, List.reverse_reverse]
  exact List.dropWhile_suffix _

theorem getLast_trimEnd (segs : List (List Char)) (h : trimEnd segs ≠ []) :
    isTrivial ((trimEnd segs).getLast h) = false := by
  have hDropped : segs.reverse.dropWhile isTrivial ≠ [] := by
    simpa [trimEnd] using h
  have hHead := List.head_dropWhile_not (p := isTrivial) hDropped
  simpa [trimEnd, List.getLast_reverse] using hHead

theorem length_joinSegments_mono {as bs : List (List Char)} (h : as <+: bs) :
    (joinSegments as).length ≤ (joinSegments bs).length := by
  obtain ⟨rest, rfl⟩ := h
  exact length_joinSegments_le_append as rest

theorem length_parent?_lt {p q : Path} (h : p.parent? = some q) :
    q.chars.length < p.chars.length := by
  have hSplit := congrArg List.length (splitLead_append p.chars)
  have hWhole := length_joinSegments_mono (prefix_trimEnd (segments (splitLead p.chars).2))
  rw [joinSegments_segments] at hWhole
  rw [List.length_append] at hSplit
  dsimp only [parent?] at h
  split at h
  · split at h
    · rename_i hLead
      obtain rfl := Option.some.inj h
      simp only [hLead, List.length_singleton] at hSplit
      simp only [chars, String.toList_empty, List.length_nil] at hSplit ⊢
      omega
    · cases h
  · rename_i hSegs
    obtain rfl := Option.some.inj h
    have hLast : isTrivial ((trimEnd (segments (splitLead p.chars).2)).getLast hSegs) = false :=
      getLast_trimEnd _ hSegs
    have hTrim := length_joinSegments_mono
      (prefix_trimEnd (trimEnd (segments (splitLead p.chars).2)).dropLast)
    have hAppend := congrArg (fun segs => (joinSegments segs).length)
      (List.dropLast_concat_getLast hSegs)
    rw [length_joinSegments_append_singleton] at hAppend
    have hPos : 0 < ((trimEnd (segments (splitLead p.chars).2)).getLast hSegs).length := by
      rw [List.length_pos_iff]
      intro hNil
      rw [hNil] at hLast
      exact Bool.noConfusion hLast
    rw [chars_ofChars, List.length_append]
    split at hAppend
    · rename_i hEmpty
      rw [hEmpty] at hTrim ⊢
      simp only [trimEnd, List.reverse_nil, List.dropWhile_nil, joinSegments, List.length_nil]
      omega
    · omega

def ancestors (p : Path) : List Path :=
  match _h : p.parent? with
  | none => [p]
  | some q => p :: ancestors q
termination_by p.chars.length
decreasing_by exact length_parent?_lt _h

end Path
end ExplicitModules
