/-!
# File trees

A tree maps locations, the names on the way down from the root, to nodes. The root is always a
directory. An entry below something that is not a directory is never reached by any operation, so
no such entry has to be ruled out.
-/
namespace ExplicitModules
set_option autoImplicit false

abbrev Location := List String

/-- Modes are the permission bits. -/
inductive Node
  | file (content : ByteArray) (mode : Nat)
  | directory (mode : Nat)
  | link (target : String)

theorem Node.file_inj {a b : ByteArray} {m n : Nat} :
    Node.file a m = Node.file b n ↔ a.data.toList = b.data.toList ∧ m = n := by
  constructor
  · intro h
    obtain ⟨rfl, rfl⟩ := Node.file.inj h
    exact ⟨rfl, rfl⟩
  · rintro ⟨hData, rfl⟩
    rw [ByteArray.ext (Array.toList_inj.mp hData)]

instance : DecidableEq Node
  | .file _ _, .file _ _ => decidable_of_iff _ Node.file_inj.symm
  | .directory m, .directory n =>
    decidable_of_iff (m = n) ⟨congrArg Node.directory, Node.directory.inj⟩
  | .link a, .link b => decidable_of_iff (a = b) ⟨congrArg Node.link, Node.link.inj⟩
  | .file _ _, .directory _ => isFalse Node.noConfusion
  | .file _ _, .link _ => isFalse Node.noConfusion
  | .directory _, .file _ _ => isFalse Node.noConfusion
  | .directory _, .link _ => isFalse Node.noConfusion
  | .link _, .file _ _ => isFalse Node.noConfusion
  | .link _, .directory _ => isFalse Node.noConfusion

structure FileTree where
  entries : List (Location × Node)
deriving DecidableEq

namespace FileTree

def empty : FileTree := ⟨[]⟩

def directoryMode : Nat := 0o755

def fileMode : Nat := 0o644

def node? (t : FileTree) (loc : Location) : Option Node :=
  if loc = [] then some (.directory directoryMode) else t.entries.lookup loc

/-- Puts `node` at `loc`; an entry that is there already gives way in its place. -/
def put (t : FileTree) (loc : Location) (node : Node) : FileTree :=
  if t.entries.any fun entry => entry.1 == loc then
    ⟨t.entries.map fun entry => if entry.1 = loc then (loc, node) else entry⟩
  else ⟨(loc, node) :: t.entries⟩

/-- Removes `loc` and everything below. -/
def erase (t : FileTree) (loc : Location) : FileTree :=
  ⟨t.entries.filter fun entry => !loc.isPrefixOf entry.1⟩

def children (t : FileTree) (loc : Location) : List String :=
  t.entries.filterMap fun entry =>
    if entry.1.dropLast = loc then entry.1.getLast? else none

def isDirectoryAt (t : FileTree) (loc : Location) : Bool :=
  match t.node? loc with
  | some (.directory _) => true
  | _ => false

/-- No location is longer. -/
def height (t : FileTree) : Nat :=
  t.entries.foldr (fun entry n => max entry.1.length n) 0

@[simp] theorem node?_nil (t : FileTree) : t.node? [] = some (.directory directoryMode) := by
  simp [node?]

theorem lookup_map_replace_ne {entries : List (Location × Node)} {loc loc' : Location}
    (node : Node) (h : loc' ≠ loc) :
    (entries.map fun entry => if entry.1 = loc then (loc, node) else entry).lookup loc' =
      entries.lookup loc' := by
  induction entries with
  | nil => rfl
  | cons entry rest ih =>
    obtain ⟨key, old⟩ := entry
    rw [List.map_cons, List.lookup_cons]
    by_cases hKey : key = loc
    · have hNe : (loc' == key) = false := by simp [hKey, h]
      rw [if_pos hKey, List.lookup_cons, ih, ← hKey, hNe]
    · rw [if_neg hKey, List.lookup_cons, ih]

theorem lookup_map_replace_self {entries : List (Location × Node)} {loc : Location}
    (node : Node) (hMem : loc ∈ entries.map Prod.fst) :
    (entries.map fun entry => if entry.1 = loc then (loc, node) else entry).lookup loc =
      some node := by
  induction entries with
  | nil => cases hMem
  | cons entry rest ih =>
    obtain ⟨key, old⟩ := entry
    rw [List.map_cons]
    by_cases hKey : key = loc
    · rw [if_pos hKey, List.lookup_cons_self]
    · have hNe : (loc == key) = false := by simp [Ne.symm hKey]
      rw [if_neg hKey, List.lookup_cons, hNe]
      exact ih ((List.mem_cons.mp hMem).resolve_left (Ne.symm hKey))

theorem node?_put (t : FileTree) (loc loc' : Location) (node : Node) :
    (t.put loc node).node? loc' =
      if loc' = [] then some (.directory directoryMode)
      else if loc' = loc then some node else t.node? loc' := by
  unfold node? put
  by_cases hRoot : loc' = []
  · rw [if_pos hRoot, if_pos hRoot]
  · rw [if_neg hRoot, if_neg hRoot]
    split
    · rename_i hAny
      by_cases hLoc : loc' = loc
      · subst hLoc
        rw [if_pos rfl]
        exact lookup_map_replace_self node (by simpa using hAny)
      · rw [if_neg hLoc]
        exact lookup_map_replace_ne node hLoc
    · by_cases hLoc : loc' = loc
      · rw [if_pos hLoc, hLoc, List.lookup_cons_self]
      · have hNe : (loc' == loc) = false := by simp [hLoc]
        rw [if_neg hLoc, List.lookup_cons, hNe]

theorem length_le_height {t : FileTree} {entry : Location × Node} (h : entry ∈ t.entries) :
    entry.1.length ≤ t.height := by
  obtain ⟨entries⟩ := t
  simp only [height] at h ⊢
  induction entries with
  | nil => cases h
  | cons head rest ih =>
    rw [List.foldr_cons]
    rcases List.mem_cons.mp h with rfl | hRest
    · exact Nat.le_max_left _ _
    · exact Nat.le_trans (ih hRest) (Nat.le_max_right _ _)

theorem mem_children_iff {t : FileTree} {loc : Location} {name : String} :
    name ∈ t.children loc ↔ ∃ node, (loc ++ [name], node) ∈ t.entries := by
  unfold children
  rw [List.mem_filterMap]
  constructor
  · rintro ⟨⟨key, node⟩, hMem, hKey⟩
    dsimp only at hKey
    split at hKey
    · rename_i hParent
      obtain ⟨init, rfl⟩ := List.getLast?_eq_some_iff.mp hKey
      rw [List.dropLast_concat] at hParent
      subst hParent
      exact ⟨node, hMem⟩
    · cases hKey
  · rintro ⟨node, hMem⟩
    exact ⟨(loc ++ [name], node), hMem, by simp⟩

theorem length_lt_height_of_mem_children {t : FileTree} {loc : Location} {name : String}
    (h : name ∈ t.children loc) : loc.length < t.height := by
  obtain ⟨node, hMem⟩ := mem_children_iff.mp h
  have hLe := length_le_height hMem
  simp only [List.length_append, List.length_singleton] at hLe
  omega

end FileTree
end ExplicitModules
