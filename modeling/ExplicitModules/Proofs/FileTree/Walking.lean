import ExplicitModules.Proofs.FileTree.Listing
import ExplicitModules.Proofs.FileTree.Saving

/-!
# What a walk comes to

A walk lists an entry if it is kept and every directory on the way to it is. The path that is shown
leads to the entry, unless it is too long: below the place where a walk starts it meets no link.
-/
namespace ExplicitModules
set_option autoImplicit false
open ExplicitModules.Path (segments isTrivial)

namespace Path

def descend (p : Path) (names : List String) : Path :=
  names.foldl joinText p

@[simp] theorem descend_nil (p : Path) : p.descend [] = p := rfl

@[simp] theorem descend_cons (p : Path) (name : String) (names : List String) :
    p.descend (name :: names) = (p.joinText name).descend names := rfl

theorem descend_concat (p : Path) (names : List String) (name : String) :
    p.descend (names ++ [name]) = (p.descend names).joinText name :=
  List.foldl_concat ..

theorem segments_append_slash (front back : List Char) :
    segments (front ++ '/' :: back) = segments front ++ segments back := by
  induction front with
  | nil => simp [segments]
  | cons c front ih =>
    rw [List.cons_append, segments, segments, ih]
    split
    · rfl
    · cases hFront : segments front with
      | nil => exact absurd hFront (segments_ne_nil front)
      | cons first rest => rfl

theorem segments_of_no_slash {cs : List Char} (h : '/' ∉ cs) : segments cs = [cs] := by
  induction cs with
  | nil => rfl
  | cons c cs ih =>
    rw [List.mem_cons, not_or] at h
    rw [segments, if_neg (Ne.symm h.1), ih h.2]

structure IsName (name : String) : Prop where
  nontrivial : isTrivial name.toList = false
  notParent : name.toList ≠ ['.', '.']
  plain : '/' ∉ name.toList

instance (name : String) : Decidable (IsName name) :=
  decidable_of_iff (isTrivial name.toList = false ∧ name.toList ≠ ['.', '.'] ∧ '/' ∉ name.toList)
    ⟨fun ⟨hNontrivial, hParent, hPlain⟩ => ⟨hNontrivial, hParent, hPlain⟩,
      fun h => ⟨h.nontrivial, h.notParent, h.plain⟩⟩

theorem IsName.ne_nil {name : String} (h : IsName name) : name.toList ≠ [] := by
  intro hNil
  have hNontrivial := h.nontrivial
  rw [hNil] at hNontrivial
  cases hNontrivial

theorem IsName.relative {name : String} (h : IsName name) : Path.isAbsolute ⟨name⟩ = false := by
  obtain ⟨c, cs, hName⟩ := List.exists_cons_of_ne_nil h.ne_nil
  have hPlain := h.plain
  rw [hName, List.mem_cons, not_or] at hPlain
  simp [isAbsolute, chars, hName, Ne.symm hPlain.1]

theorem IsName.chars_joinText {p : Path} {name : String} (h : IsName name) :
    (p.joinText name).chars = p.chars ++ name.toList ∧ (p.chars = [] ∨ p.chars.getLast? = some '/') ∨
      (p.joinText name).chars = p.chars ++ '/' :: name.toList := by
  rw [joinText, join, if_neg (by simp [h.relative])]
  split
  · rename_i hEnd
    exact Or.inl ⟨chars_ofChars _, hEnd⟩
  · exact Or.inr (chars_ofChars _)

theorem IsName.joinText_ne_nil {p : Path} {name : String} (h : IsName name) :
    (p.joinText name).chars ≠ [] := by
  rcases h.chars_joinText (p := p) with ⟨hChars, -⟩ | hChars
  · simp [hChars, h.ne_nil]
  · simp [hChars]

theorem descend_ne_nil {p : Path} {names : List String} (hNames : ∀ name ∈ names, IsName name)
    (hSome : names ≠ []) : (p.descend names).chars ≠ [] := by
  rcases names.eq_nil_or_concat' with rfl | ⟨front, last, rfl⟩
  · exact absurd rfl hSome
  · rw [descend_concat]
    exact (hNames last (by simp)).joinText_ne_nil

theorem length_lt_descend {p : Path} {names : List String} (hNames : ∀ name ∈ names, IsName name)
    (hSome : names ≠ []) : p.chars.length < (p.descend names).chars.length := by
  have hOne : ∀ (p : Path) (name : String), IsName name →
      p.chars.length < (p.joinText name).chars.length := by
    intro p name hName
    have hLength := List.length_pos_iff.mpr hName.ne_nil
    rcases hName.chars_joinText (p := p) with ⟨hChars, -⟩ | hChars
    · rw [hChars, List.length_append]
      omega
    · rw [hChars, List.length_append, List.length_cons]
      omega
  induction names generalizing p with
  | nil => exact absurd rfl hSome
  | cons name names ih =>
    rw [List.forall_mem_cons] at hNames
    have hFirst := hOne p name hNames.1
    by_cases hRest : names = []
    · rw [hRest]
      exact hFirst
    · exact Nat.lt_trans hFirst (ih hNames.2 hRest)

/-- A slash has to be put between the path and a name. -/
def EndsInName (p : Path) : Prop :=
  p.chars ≠ [] ∧ p.chars.getLast? ≠ some '/'

theorem IsName.endsInName {p : Path} {name : String} (h : IsName name) :
    (p.joinText name).EndsInName := by
  refine ⟨h.joinText_ne_nil, fun hSlash => ?_⟩
  obtain ⟨front, last, hName⟩ := (List.eq_nil_or_concat' name.toList).resolve_left h.ne_nil
  have hLast : last = '/' := by
    rcases h.chars_joinText (p := p) with ⟨hChars, -⟩ | hChars
    · simpa [hChars, hName] using hSlash
    · rw [hChars, hName, ← List.cons_append, ← List.append_assoc, List.getLast?_concat] at hSlash
      exact Option.some.inj hSlash
  exact h.plain (by simp [hName, hLast])

theorem EndsInName.chars_joinText {p : Path} {name : String} (h : p.EndsInName) (hName : IsName name) :
    (p.joinText name).chars = p.chars ++ '/' :: name.toList := by
  rcases hName.chars_joinText (p := p) with ⟨-, hNil | hSlash⟩ | hChars
  · exact absurd hNil h.1
  · exact absurd hSlash h.2
  · exact hChars

theorem EndsInName.exists_rest {p : Path} {names : List String} (h : p.EndsInName)
    (hNames : ∀ name ∈ names, IsName name) (hSome : names ≠ []) :
    ∃ rest, (p.descend names).chars = p.chars ++ '/' :: rest := by
  induction names generalizing p with
  | nil => exact absurd rfl hSome
  | cons name names ih =>
    rw [List.forall_mem_cons] at hNames
    have hChars := h.chars_joinText hNames.1
    by_cases hRest : names = []
    · rw [hRest]
      exact ⟨name.toList, hChars⟩
    · obtain ⟨rest, hBelow⟩ := ih hNames.1.endsInName hNames.2 hRest
      rw [hChars] at hBelow
      exact ⟨name.toList ++ '/' :: rest, by rw [descend_cons, hBelow]; simp⟩

theorem exists_chars_descend (p : Path) {names more : List String}
    (hNames : ∀ name ∈ names ++ more, IsName name) (hSome : names ≠ []) (hMore : more ≠ []) :
    ∃ rest, (p.descend (names ++ more)).chars = (p.descend names).chars ++ '/' :: rest := by
  rw [List.forall_mem_append] at hNames
  obtain ⟨front, last, rfl⟩ := (List.eq_nil_or_concat' names).resolve_left hSome
  have hEnd : (p.descend (front ++ [last])).EndsInName := by
    rw [descend_concat]
    exact (hNames.1 last (by simp)).endsInName
  obtain ⟨rest, hRest⟩ := hEnd.exists_rest hNames.2 hMore
  refine ⟨rest, ?_⟩
  rw [← hRest]
  exact congrArg Path.chars List.foldl_append

/-- The segments of a path with a name put behind, up to an empty one in front of the name. -/
theorem IsName.segments_joinText {p : Path} {name : String} (h : IsName name) :
    segments (p.joinText name).chars = segments p.chars ++ [name.toList] ∨
      ∃ front, segments p.chars = front ++ [[]] ∧
        segments (p.joinText name).chars = front ++ [name.toList] := by
  rcases h.chars_joinText (p := p) with ⟨hChars, hNil | hLast⟩ | hChars
  · refine Or.inr ⟨[], ?_, ?_⟩
    · rw [hNil]
      rfl
    · rw [hChars, hNil, List.nil_append, segments_of_no_slash h.plain]
      rfl
  · obtain ⟨front, hFront⟩ := List.getLast?_eq_some_iff.mp hLast
    refine Or.inr ⟨segments front, ?_, ?_⟩
    · rw [hFront, segments_append_slash]
      rfl
    · rw [hChars, hFront, List.append_assoc, List.singleton_append, segments_append_slash,
        segments_of_no_slash h.plain]
  · rw [hChars, segments_append_slash, segments_of_no_slash h.plain]
    exact Or.inl rfl

end Path

namespace FileTree

section Walk

variable {t : FileTree} {keep : WalkEntry → Bool} {loc : Location} {shown : Path} {name : String}
  {e : WalkEntry}

/-- Every name of `front` is that of a directory that is kept, each in the one before. -/
def KeptWay (t : FileTree) (keep : WalkEntry → Bool) : Location → Path → List String → Prop
  | _, _, [] => True
  | loc, shown, dir :: front =>
    (∃ mode, t.node? (loc ++ [dir]) = some (.directory mode) ∧
      keep ⟨shown.joinText dir, dir, .directory mode⟩ = true) ∧
    KeptWay t keep (loc ++ [dir]) (shown.joinText dir) front

theorem keptWay_iff {front : List String} :
    t.KeptWay keep loc shown front ↔ ∀ dirs dir, dirs ++ [dir] <+: front →
      ∃ mode, t.node? (loc ++ dirs ++ [dir]) = some (.directory mode) ∧
        keep ⟨shown.descend (dirs ++ [dir]), dir, .directory mode⟩ = true := by
  induction front generalizing loc shown with
  | nil => simp [KeptWay]
  | cons first front ih =>
    rw [KeptWay, ih]
    constructor
    · rintro ⟨hFirst, hRest⟩ dirs dir hPrefix
      cases dirs with
      | nil =>
        obtain ⟨rfl, -⟩ := List.cons_prefix_cons.mp hPrefix
        simpa using hFirst
      | cons above dirs =>
        obtain ⟨rfl, hPrefix⟩ := List.cons_prefix_cons.mp hPrefix
        simpa using hRest dirs dir (by simpa using hPrefix)
    · intro h
      refine ⟨?_, ?_⟩
      · simpa using h [] first (List.cons_prefix_cons.mpr ⟨rfl, List.nil_prefix⟩)
      · intro dirs dir hPrefix
        simpa using h (first :: dirs) dir (List.cons_prefix_cons.mpr ⟨rfl, hPrefix⟩)

theorem KeptWay.isDirectoryAt {front dirs : List String} (h : t.KeptWay keep loc shown front)
    (hLoc : t.isDirectoryAt loc = true) (hDirs : dirs <+: front) :
    t.isDirectoryAt (loc ++ dirs) = true := by
  rcases dirs.eq_nil_or_concat' with rfl | ⟨above, dir, rfl⟩
  · rw [List.append_nil]
    exact hLoc
  · obtain ⟨mode, hNode, -⟩ := keptWay_iff.mp h above dir hDirs
    rw [← List.append_assoc, FileTree.isDirectoryAt, hNode]

/-- Above what is at the end of a way that is kept there are directories only. -/
theorem KeptWay.isDirectoryAt_above {dirs front : List String} (h : t.KeptWay keep loc shown dirs)
    (hLoc : t.isDirectoryAt loc = true) (hFront : front <+: dirs ++ [name])
    (hNe : front ≠ dirs ++ [name]) : t.isDirectoryAt (loc ++ front) = true :=
  h.isDirectoryAt hLoc ((List.prefix_concat_iff.mp hFront).resolve_left hNe)

theorem mem_sortedChildren_of_node? {node : Node} (h : t.node? (loc ++ [name]) = some node) :
    name ∈ t.sortedChildren loc := by
  rw [node?, if_neg (by simp)] at h
  obtain ⟨front, back, hEntries, -⟩ := List.lookup_eq_some_iff.mp h
  refine mem_sortedChildren.mpr (mem_children_iff.mpr ⟨node, ?_⟩)
  rw [hEntries]
  simp

theorem mem_walkName_iff : e ∈ t.walkName keep loc shown name ↔
    ∃ node, t.node? (loc ++ [name]) = some node ∧ keep ⟨shown.joinText name, name, node⟩ = true ∧
      (e = ⟨shown.joinText name, name, node⟩ ∨ ∃ mode, node = .directory mode ∧
        e ∈ t.walkBelow keep (loc ++ [name]) (shown.joinText name)) := by
  unfold walkName childEntry?
  cases t.node? (loc ++ [name]) with
  | none => simp
  | some node =>
    simp only [Option.map_some, Option.some.injEq, exists_eq_left']
    split
    · rename_i hKeep
      rw [eq_true hKeep, true_and]
      cases node <;> simp [WalkEntry.isDirectory]
    · rename_i hKeep
      simp [hKeep]

/-- A walk comes to an entry if that is kept with every directory on the way. -/
theorem mem_walkBelow_iff : e ∈ t.walkBelow keep loc shown ↔
    ∃ front name node, t.KeptWay keep loc shown front ∧
      t.node? (loc ++ front ++ [name]) = some node ∧
      e = ⟨shown.descend (front ++ [name]), name, node⟩ ∧ keep e = true := by
  induction loc, shown using walkBelow.induct t with
  | case1 loc shown ih =>
    rw [walkBelow_eq_flatMap, List.mem_flatMap]
    simp only [mem_walkName_iff]
    constructor
    · rintro ⟨name, hName, node, hNode, hKeep, rfl | ⟨mode, rfl, hBelow⟩⟩
      · exact ⟨[], name, node, trivial, by simpa using hNode, rfl, hKeep⟩
      · rw [ih name hName ⟨shown.joinText name, name, .directory mode⟩] at hBelow
        obtain ⟨front, last, node, hWay, hLast, hEntry, hKept⟩ := hBelow
        refine ⟨name :: front, last, node, ⟨⟨mode, hNode, hKeep⟩, hWay⟩, ?_, hEntry, hKept⟩
        simpa using hLast
    · rintro ⟨front, last, node, hWay, hLast, rfl, hKept⟩
      cases front with
      | nil =>
        have hLast : t.node? (loc ++ [last]) = some node := by simpa using hLast
        exact ⟨last, mem_sortedChildren_of_node? hLast, node, hLast, hKept, Or.inl rfl⟩
      | cons dir front =>
        obtain ⟨⟨mode, hNode, hKeep⟩, hWay⟩ := hWay
        have hDir := mem_sortedChildren_of_node? hNode
        refine ⟨dir, hDir, _, hNode, hKeep, Or.inr ⟨mode, rfl, ?_⟩⟩
        rw [ih dir hDir ⟨shown.joinText dir, dir, .directory mode⟩]
        exact ⟨front, last, node, hWay, by simpa using hLast, rfl, hKept⟩

/-- A walk lists the place where it starts and, if that leads to a directory, what is below. -/
theorem mem_entriesFrom_iff {root : Path} : e ∈ t.entriesFrom keep root ↔
    (∃ loc node, t.locate false root = .ok loc ∧ t.node? loc = some node ∧
      e = ⟨root, root.fileName?.getD "", node⟩) ∨
    ∃ start, t.locate true root = .ok start ∧ t.isDirectoryAt start = true ∧
      e ∈ t.walkBelow keep start root := by
  unfold entriesFrom
  cases hEntry : t.locate false root with
  | error fault =>
    refine iff_of_false nofun ?_
    rintro (⟨loc, node, hLoc, -⟩ | ⟨start, hStart, -⟩)
    · cases hLoc
    · obtain ⟨entry, hEntry', -⟩ := locate_false_of_true hStart
      rw [hEntry] at hEntry'
      cases hEntry'
  | ok loc =>
    dsimp only
    rw [List.mem_append, Option.mem_toList, Option.map_eq_some_iff]
    apply or_congr
    · constructor
      · rintro ⟨node, hNode, rfl⟩
        exact ⟨loc, node, rfl, hNode, rfl⟩
      · rintro ⟨loc', node, hLoc, hNode, rfl⟩
        obtain rfl := Except.ok.inj hLoc
        exact ⟨node, hNode, rfl⟩
    · cases t.locate true root with
      | error fault => exact iff_of_false nofun nofun
      | ok start =>
        dsimp only
        split
        · rename_i hDirectory
          simp [hDirectory]
        · rename_i hDirectory
          simp [hDirectory]

/-- Below a directory a walk comes to one that it keeps and whose path is too long to be opened. -/
def Overruns (t : FileTree) (keep : WalkEntry → Bool) (root : Path) : Prop :=
  ∃ start dirs, t.locate true root = .ok start ∧ t.isDirectoryAt start = true ∧ dirs ≠ [] ∧
    t.KeptWay keep start root dirs ∧ maxPath < Text.utf8Length (root.descend dirs).chars

theorem length_le_of_locate {follow : Bool} {p : Path} (h : t.locate follow p = .ok loc) :
    Text.utf8Length p.chars ≤ maxPath := by
  obtain ⟨hLength, hNul, -⟩ := text_of_locate h
  exact Nat.not_lt.mp fun hLong => hLength ⟨hLong, by simpa using hNul⟩

theorem overruns_iff {root : Path} : t.Overruns keep root ↔
    ∃ e ∈ t.entriesFrom keep root, e.isOutOfReach = true := by
  constructor
  · rintro ⟨start, dirs, hStart, hDirectory, hSome, hWay, hLong⟩
    obtain ⟨front, name, rfl⟩ := dirs.eq_nil_or_concat'.resolve_left hSome
    obtain ⟨mode, hNode, hKept⟩ := keptWay_iff.mp hWay front name (List.prefix_refl _)
    have hFront := keptWay_iff.mpr fun dirs dir hDirs =>
      keptWay_iff.mp hWay dirs dir (hDirs.trans (List.prefix_append front [name]))
    refine ⟨_, mem_entriesFrom_iff.mpr (Or.inr ⟨start, hStart, hDirectory, mem_walkBelow_iff.mpr
      ⟨front, name, _, hFront, hNode, rfl, hKept⟩⟩), ?_⟩
    simp [WalkEntry.isOutOfReach, WalkEntry.isDirectory, hLong]
  · rintro ⟨e, hMem, hOut⟩
    rw [WalkEntry.isOutOfReach, Bool.and_eq_true, decide_eq_true_eq] at hOut
    rcases mem_entriesFrom_iff.mp hMem with ⟨loc, node, hLoc, -, rfl⟩ |
      ⟨start, hStart, hDirectory, hBelow⟩
    · -- the root itself can be looked up
      exact absurd hOut.2 (Nat.not_lt.mpr (length_le_of_locate hLoc))
    · obtain ⟨front, name, node, hWay, hNode, rfl, hKept⟩ := mem_walkBelow_iff.mp hBelow
      cases node with
      | file content mode => cases hOut.1
      | link target => cases hOut.1
      | directory mode =>
        refine ⟨start, front ++ [name], hStart, hDirectory, by simp, ?_, hOut.2⟩
        refine keptWay_iff.mpr fun dirs dir hDirs => ?_
        rcases List.prefix_concat_iff.mp hDirs with hLast | hAbove
        · obtain ⟨rfl, hDir⟩ := List.append_inj' hLast rfl
          obtain rfl := List.singleton_inj.mp hDir
          exact ⟨mode, hNode, hKept⟩
        · exact keptWay_iff.mp hWay dirs dir hAbove

end Walk

/-- No entry has a name that no path could spell, as in every tree of a file system. -/
def Named (t : FileTree) : Prop :=
  ∀ entry ∈ t.entries, ∀ name ∈ entry.1, Path.IsName name

instance (t : FileTree) : Decidable t.Named :=
  inferInstanceAs (Decidable (∀ entry ∈ t.entries, ∀ name ∈ entry.1, Path.IsName name))

theorem Named.isName {t : FileTree} (h : t.Named) {loc : Location} {node : Node}
    (hNode : t.node? loc = some node) : ∀ name ∈ loc, Path.IsName name := by
  unfold node? at hNode
  split at hNode
  · rename_i hRoot
    rw [hRoot]
    exact nofun
  · obtain ⟨front, back, hEntries, -⟩ := List.lookup_eq_some_iff.mp hNode
    exact h (loc, node) (by simp [hEntries])

theorem Named.isName_of_isFileAt {t : FileTree} (h : t.Named) {loc : Location} {names : List String}
    (hFile : t.isFileAt (loc ++ names) = true) : ∀ name ∈ names, Path.IsName name := by
  obtain ⟨content, mode, hNode⟩ := isFileAt_iff.mp hFile
  exact fun name hName => h.isName hNode name (List.mem_append_right loc hName)

section Follow

variable {t : FileTree} {follow : Bool} {links : Nat} {current loc : Location} {p : Path}
  {names : List String}

/-- An empty segment shows only at the end of a path. -/
theorem walkTo_skip (front rest : List (List Char)) (segment : List Char) :
    t.walkTo follow links current (front ++ [] :: segment :: rest) =
      t.walkTo follow links current (front ++ segment :: rest) := by
  induction links, current, front using walk_induction with
  | nil links current =>
    by_cases hDirectory : t.isDirectoryAt current = true
    · exact walkTo_cons_of_none (by simp [stepTo, hDirectory, isTrivial])
    · have hStep : ∀ s, t.stepTo current s = .error .notDirectory := fun s =>
        stepTo_of_not_directory (Bool.eq_false_iff.mpr hDirectory)
      rw [List.nil_append, List.nil_append, walkTo_cons_of_error (hStep []),
        walkTo_cons_of_error (hStep segment)]
  | cons links current first pending ihRest ihLink =>
    have hOn : ∀ tail : List (List Char), tail ≠ [] → follow = true ∨ pending ++ tail ≠ [] :=
      fun tail hTail => Or.inr (by simp [hTail])
    rw [List.cons_append, List.cons_append]
    cases hStep : t.stepTo current first with
    | error e => rw [walkTo_cons_of_error hStep, walkTo_cons_of_error hStep]
    | ok found =>
      obtain ⟨next, link⟩ := found
      cases link with
      | none =>
        rw [walkTo_cons_of_none hStep, walkTo_cons_of_none hStep]
        exact ihRest next
      | some target =>
        cases links with
        | zero =>
          rw [walkTo_cons_zero hStep (hOn _ (by simp)), walkTo_cons_zero hStep (hOn _ (by simp))]
        | succ links =>
          rw [walkTo_cons_succ hStep (hOn _ (by simp)), walkTo_cons_succ hStep (hOn _ (by simp)),
            ← List.append_assoc, ← List.append_assoc]
          exact ihLink links (Nat.lt_succ_self links) _ _

/-- The path of what names lead to is followed name by name. -/
theorem walkTo_descend (hNames : ∀ name ∈ names, Path.IsName name) (hSome : names ≠ []) :
    t.walkTo follow links current (segments (p.descend names).chars) =
      t.walkTo follow links current (segments p.chars ++ names.map String.toList) := by
  have hOne : ∀ (p : Path) (name : String) (rest : List (List Char)), Path.IsName name →
      t.walkTo follow links current (segments (p.joinText name).chars ++ rest) =
        t.walkTo follow links current (segments p.chars ++ name.toList :: rest) := by
    intro p name rest hName
    rcases hName.segments_joinText (p := p) with hSegments | ⟨front, hFront, hSegments⟩
    · rw [hSegments, List.append_assoc, List.singleton_append]
    · rw [hSegments, hFront, List.append_assoc, List.append_assoc]
      exact (walkTo_skip front rest name.toList).symm
  induction names generalizing p with
  | nil => exact absurd rfl hSome
  | cons name names ih =>
    rw [List.forall_mem_cons] at hNames
    rw [Path.descend_cons, List.map_cons]
    cases names with
    | nil =>
      have hSame := hOne p name [] hNames.1
      rwa [List.append_nil] at hSame
    | cons second names =>
      rw [ih hNames.2 (List.cons_ne_nil second names)]
      exact hOne p name _ hNames.1

/-- A step to an entry that is no link arrives there, unless its name is too long. -/
theorem stepTo_name {name : String} {node : Node} (hName : Path.IsName name)
    (hDirectory : t.isDirectoryAt current = true) (hNode : t.node? (current ++ [name]) = some node)
    (hLink : ∀ target, node ≠ .link target) :
    t.stepTo current name.toList = .ok (current ++ [name], none) ∨
      t.stepTo current name.toList = .error .nameTooLong := by
  unfold stepTo
  rw [if_pos hDirectory, if_neg (by simp [hName.nontrivial]), if_neg hName.notParent]
  split
  · exact Or.inr rfl
  · left
    dsimp only
    rw [String.ofList_toList, hNode]
    cases node with
    | link target => exact absurd rfl (hLink target)
    | file _ _ => rfl
    | directory _ => rfl

/-- Below a directory, names are followed down to the entry that they lead to. -/
theorem walkTo_names (hNames : ∀ name ∈ names, Path.IsName name)
    (hDirectories : ∀ front, front <+: names → front ≠ names →
      t.isDirectoryAt (current ++ front) = true)
    {node : Node} (hNode : t.node? (current ++ names) = some node)
    (hLink : ∀ target, node ≠ .link target) :
    t.walkTo follow links current (names.map String.toList) = .ok (current ++ names) ∨
      t.walkTo follow links current (names.map String.toList) = .error .nameTooLong := by
  induction names generalizing current with
  | nil => exact Or.inl (by simp)
  | cons name names ih =>
    rw [List.forall_mem_cons] at hNames
    have hHere : t.isDirectoryAt current = true := by
      simpa using hDirectories [] List.nil_prefix (List.cons_ne_nil name names).symm
    -- the entry is there, and only the last could be a link
    have hEntry : ∃ entry, t.node? (current ++ [name]) = some entry ∧
        ∀ target, entry ≠ .link target := by
      by_cases hLast : names = []
      · subst hLast
        exact ⟨node, hNode, hLink⟩
      · have hNext := hDirectories [name] (by simp) (by simpa using Ne.symm hLast)
        obtain ⟨mode, hNext⟩ := isDirectoryAt_iff.mp hNext
        exact ⟨_, hNext, nofun⟩
    obtain ⟨entry, hEntry, hNotLink⟩ := hEntry
    rw [List.map_cons]
    rcases stepTo_name hNames.1 hHere hEntry hNotLink with hStep | hStep
    · rw [walkTo_cons_of_none hStep]
      have hBelow : ∀ front, front <+: names → front ≠ names →
          t.isDirectoryAt (current ++ [name] ++ front) = true := by
        intro front hFront hNe
        simpa using hDirectories (name :: front) (List.cons_prefix_cons.mpr ⟨rfl, hFront⟩)
          (by simpa using hNe)
      simpa using ih hNames.2 hBelow (by simpa using hNode)
    · exact Or.inr (walkTo_cons_of_error hStep)

theorem walkTo_true_of_false {pending : List (List Char)}
    (h : t.walkTo false links current pending = .ok loc) (hLink : ¬t.IsLinkAt loc) :
    t.walkTo true links current pending = .ok loc := by
  induction links, current, pending using walk_induction with
  | nil links current =>
    rw [walkTo_nil] at h ⊢
    exact h
  | cons links current segment rest ihRest ihLink =>
    cases hStep : t.stepTo current segment with
    | error e =>
      rw [walkTo_cons_of_error hStep] at h
      cases h
    | ok found =>
      obtain ⟨next, link⟩ := found
      cases link with
      | none =>
        rw [walkTo_cons_of_none hStep] at h ⊢
        exact ihRest next h
      | some target =>
        by_cases hRest : rest = []
        · subst hRest
          rw [walkTo_last hStep] at h
          obtain rfl := Except.ok.inj h
          exact absurd ⟨target, (stepTo_eq_link hStep).2⟩ hLink
        · cases links with
          | zero =>
            rw [walkTo_cons_zero hStep (Or.inr hRest)] at h
            cases h
          | succ links =>
            rw [walkTo_cons_succ hStep (Or.inr hRest)] at h
            rw [walkTo_cons_succ hStep (Or.inl rfl)]
            exact ihLink links (Nat.lt_succ_self links) _ _ h

theorem locate_true_of_false (h : t.locate false p = .ok loc) (hLink : ¬t.IsLinkAt loc) :
    t.locate true p = .ok loc := by
  rw [locate_eq_walkTo h t true]
  exact walkTo_true_of_false (locate_eq_ok h) hLink

/-- Each name of a place that a path leads to is a segment of the path or of a link on the way. -/
theorem forall_mem_of_walkTo {pending : List (List Char)} {P : List Char → Prop} {Q : String → Prop}
    (hStep : ∀ {current next segment link}, t.stepTo current segment = .ok (next, link) →
      (∀ name ∈ current, Q name) → P segment → ∀ name ∈ next, Q name)
    (hLink : ∀ {loc target}, t.node? loc = some (.link target) → ∀ s ∈ segments target.toList, P s)
    (h : t.walkTo follow links current pending = .ok loc) (hCurrent : ∀ name ∈ current, Q name)
    (hPending : ∀ s ∈ pending, P s) : ∀ name ∈ loc, Q name := by
  induction links, current, pending using walk_induction with
  | nil links current =>
    rw [walkTo_nil] at h
    obtain rfl := Except.ok.inj h
    exact hCurrent
  | cons links current segment rest ihRest ihLink =>
    rw [List.forall_mem_cons] at hPending
    cases hMade : t.stepTo current segment with
    | error e =>
      rw [walkTo_cons_of_error hMade] at h
      cases h
    | ok found =>
      obtain ⟨next, link⟩ := found
      have hNext := hStep hMade hCurrent hPending.1
      cases link with
      | none =>
        rw [walkTo_cons_of_none hMade] at h
        exact ihRest next h hNext hPending.2
      | some target =>
        by_cases hOn : follow = true ∨ rest ≠ []
        · cases links with
          | zero =>
            rw [walkTo_cons_zero hMade hOn] at h
            cases h
          | succ links =>
            rw [walkTo_cons_succ hMade hOn] at h
            refine ihLink links (Nat.lt_succ_self links) _ _ h ?_ ?_
            · unfold linkStart
              split
              · exact nofun
              · exact hCurrent
            · exact List.forall_mem_append.mpr ⟨hLink (stepTo_eq_link hMade).2, hPending.2⟩
        · obtain ⟨rfl, rfl⟩ := last_of_not_on hOn
          rw [walkTo_last hMade] at h
          obtain rfl := Except.ok.inj h
          exact hNext

theorem isName_of_stepTo {next : Location} {segment : List Char} {link : Option String}
    (h : t.stepTo current segment = .ok (next, link)) (hCurrent : ∀ name ∈ current, Path.IsName name)
    (hSegment : '/' ∉ segment) : ∀ name ∈ next, Path.IsName name := by
  rcases (stepTo_cases h).2 with ⟨-, rfl, -⟩ | ⟨-, -, rfl, -⟩ | ⟨hTrivial, hUp, rfl, -⟩
  · exact hCurrent
  · exact fun name hName => hCurrent name (List.dropLast_subset current hName)
  · rw [List.forall_mem_append, List.forall_mem_singleton]
    refine ⟨hCurrent, ?_, ?_, ?_⟩
    · rwa [String.toList_ofList]
    · rwa [String.toList_ofList]
    · rwa [String.toList_ofList]

/-- The path cannot be looked up: it is too long or holds a NUL. -/
def Unspellable (t : FileTree) (p : Path) : Prop :=
  t.locate true p = .error .nameTooLong ∨ t.locate true p = .error .nulInPath

theorem Unspellable.ne_tooManyLinks (h : t.Unspellable p) :
    t.locate true p ≠ .error .tooManyLinks := by
  rcases h with hLong | hNul
  · rw [hLong]
    exact nofun
  · rw [hNul]
    exact nofun

theorem locate_of_ne_nil (t : FileTree) (hPath : p.chars ≠ []) :
    t.locate true p = t.walkTo true maxLinks [] (segments p.chars) ∨ t.Unspellable p := by
  unfold Unspellable locate trace
  split
  · exact Or.inr (Or.inl rfl)
  · split
    · exact Or.inr (Or.inr rfl)
    · exact Or.inl rfl

/-- Behind a path that leads to a directory, names are followed from there. -/
theorem walkTo_path_descend {node : Node} {enough : Nat}
    (hPath : t.walkTo true enough [] (segments p.chars) = .ok current) (hSome : names ≠ [])
    (hNames : ∀ name ∈ names, Path.IsName name)
    (hDirectories : ∀ front, front <+: names → front ≠ names →
      t.isDirectoryAt (current ++ front) = true)
    (hNode : t.node? (current ++ names) = some node) (hLink : ∀ target, node ≠ .link target) :
    t.walkTo true enough [] (segments (p.descend names).chars) = .ok (current ++ names) ∨
      t.walkTo true enough [] (segments (p.descend names).chars) = .error .nameTooLong := by
  rw [walkTo_descend hNames hSome]
  rcases walkTo_append hPath enough (names.map String.toList) (Or.inl (Eq.refl true)) with
    ⟨hFewer, -⟩ | ⟨left, hEnd⟩
  · exact absurd hFewer (Nat.lt_irrefl enough)
  · rw [hEnd]
    exact walkTo_names hNames hDirectories hNode hLink

/-- The path of names below a directory leads to their entry, unless it cannot be looked up. -/
theorem locate_descend {node : Node} (hPath : t.locate true p = .ok current) (hSome : names ≠ [])
    (hNames : ∀ name ∈ names, Path.IsName name)
    (hDirectories : ∀ front, front <+: names → front ≠ names →
      t.isDirectoryAt (current ++ front) = true)
    (hNode : t.node? (current ++ names) = some node) (hLink : ∀ target, node ≠ .link target) :
    t.locate true (p.descend names) = .ok (current ++ names) ∨ t.Unspellable (p.descend names) := by
  rcases locate_of_ne_nil t (Path.descend_ne_nil hNames hSome) with hWalk | hShort
  · rw [Unspellable, hWalk]
    rcases walkTo_path_descend (locate_eq_ok hPath) hSome hNames hDirectories hNode hLink with
      hFound | hLong
    · exact Or.inl hFound
    · exact Or.inr (Or.inl hLong)
  · exact Or.inr hShort

end Follow

end FileTree
end ExplicitModules
