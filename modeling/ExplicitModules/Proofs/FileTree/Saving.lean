import ExplicitModules.Proofs.FileTree.Refilling
import Mathlib.Data.List.Pairwise

/-!
# Saving files that lie apart

While files that lie apart are saved one by one, those that have not been saved yet are found and
read as in the first tree, and those that have been are found with the text they were saved with and
the mode they had.
-/
namespace ExplicitModules.FileTree
set_option autoImplicit false
open ExplicitModules.Path (segments isTrivial)

theorem fromUTF8?_toUTF8 (text : String) : String.fromUTF8? text.toUTF8 = some text := by
  unfold String.fromUTF8?
  rw [dif_pos (show text.toUTF8.IsValidUTF8 from text.isValidUTF8)]
  rfl

theorem textAt_of_node? {t : FileTree} {loc : Location} {text : String} {mode : Nat}
    (h : t.node? loc = some (.file text.toUTF8 mode)) : t.textAt loc = .ok text := by
  unfold textAt contentAt
  rw [h]
  simp only [bind, Except.bind, fromUTF8?_toUTF8]

theorem readText_of_locate {t : FileTree} {p : Path} {loc : Location}
    (h : t.locate true p = .ok loc) : t.readText p = t.textAt loc := by
  rw [readText, h]
  rfl

theorem modeOf_of_locate {t : FileTree} {p : Path} {loc : Location} {content : ByteArray}
    {mode : Nat} (h : t.locate true p = .ok loc)
    (hNode : t.node? loc = some (.file content mode)) : t.modeOf p = .ok mode := by
  rw [modeOf, h]
  simp only [bind, Except.bind, hNode, Node.mode]

theorem readText_eq_of_locate {t u : FileTree} {p : Path} {loc : Location}
    (hT : t.locate true p = .ok loc) (hU : u.locate true p = .ok loc)
    (hNode : u.node? loc = t.node? loc) : u.readText p = t.readText p := by
  rw [readText_of_locate hT, readText_of_locate hU, textAt, textAt, contentAt, contentAt, hNode]

theorem modeOf_eq_of_locate {t u : FileTree} {p : Path} {loc : Location}
    (hT : t.locate true p = .ok loc) (hU : u.locate true p = .ok loc)
    (hNode : u.node? loc = t.node? loc) : u.modeOf p = t.modeOf p := by
  rw [modeOf, modeOf, hT, hU]
  simp only [bind, Except.bind, hNode]

theorem locate_error {t : FileTree} {p : Path} {e : FileError} (h : t.locate true p = .error e) :
    t.readText p = .error e ∧ t.modeOf p = .error e := by
  rw [readText, modeOf, h]
  exact ⟨rfl, rfl⟩

theorem isFile_of_readText {t : FileTree} {p : Path} {text : String}
    (h : t.readText p = .ok text) : t.isFile p = true := by
  cases hLoc : t.locate true p with
  | error e =>
    rw [(locate_error hLoc).1] at h
    cases h
  | ok loc =>
    rw [readText_of_locate hLoc] at h
    refine isFile_iff.mpr ⟨loc, hLoc, ?_⟩
    unfold textAt contentAt at h
    split at h
    · rename_i content mode hNode
      exact isFileAt_iff.mpr ⟨content, mode, hNode⟩
    · cases h
    · cases h

theorem isName_of_walkTo {t : FileTree} {links : Nat} {current loc : Location}
    {front : List (List Char)} {last : List Char} (hReached : t.Reached current)
    (h : t.walkTo true links current (front ++ [last]) = .ok loc) (hFile : t.isFileAt loc = true) :
    isTrivial last = false ∧ last ≠ ['.', '.'] := by
  induction links, current, front using walk_induction with
  | nil links current =>
    rw [List.nil_append] at h
    by_cases hDirectory : t.isDirectoryAt current = true
    · -- a dot or two would lead to a directory
      refine ⟨Bool.eq_false_iff.mpr fun hTrivial => ?_, fun hParent => ?_⟩
      · have hStep : t.stepTo current last = .ok (current, none) := by
          simp [stepTo, hDirectory, hTrivial]
        rw [walkTo_cons_of_none hStep, walkTo_nil] at h
        obtain rfl := Except.ok.inj h
        rw [isDirectoryAt_of_isFileAt hFile] at hDirectory
        cases hDirectory
      · have hStep : t.stepTo current last = .ok (current.dropLast, none) := by
          simp [stepTo, hDirectory, hParent, isTrivial]
        rw [walkTo_cons_of_none hStep, walkTo_nil] at h
        obtain rfl := Except.ok.inj h
        have hAbove := (hReached.dropLast hDirectory).2
        rw [isDirectoryAt_of_isFileAt hFile] at hAbove
        cases hAbove
    · rw [walkTo_cons_of_error (stepTo_of_not_directory (Bool.eq_false_iff.mpr hDirectory))] at h
      cases h
  | cons links current segment rest ihRest ihLink =>
    rw [List.cons_append] at h
    cases hStep : t.stepTo current segment with
    | error e =>
      rw [walkTo_cons_of_error hStep] at h
      cases h
    | ok found =>
      obtain ⟨next, link⟩ := found
      cases link with
      | none =>
        rw [walkTo_cons_of_none hStep] at h
        exact ihRest next (stepTo_reached hReached hStep).2.1 h
      | some target =>
        cases links with
        | zero =>
          rw [walkTo_cons_zero hStep (Or.inl rfl)] at h
          cases h
        | succ links =>
          rw [walkTo_cons_succ hStep (Or.inl rfl), ← List.append_assoc] at h
          exact ihLink links (Nat.lt_succ_self links) _ _ (hReached.linkStart target) h

/-- A file in the place of what is there, all at once, with the mode of what the path leads to. The
last segment has to be a name, and a link that it names gives way itself. -/
def replaceFile (t : FileTree) (p : Path) (content : ByteArray) : Except FileError FileTree := do
  let mode ← t.modeOf p
  match lastSegment p with
  | (none, _) => .error .busy
  | (some ['.'], _) => .error .busy
  | (some ['.', '.'], _) => .error .busy
  | (some _, true) => .error .notDirectory
  | (some _, false) =>
    let loc ← t.locate false p
    if t.isDirectoryAt loc then .error .isDirectory
    else .ok (t.put loc (.file content mode))

theorem exists_replaceFile {t : FileTree} {p : Path} (h : t.isFile p = true) (content : ByteArray) :
    ∃ u, t.replaceFile p content = .ok u := by
  obtain ⟨loc, hLoc, hFile⟩ := isFile_iff.mp h
  obtain ⟨_, mode, hNode⟩ := isFileAt_iff.mp hFile
  obtain ⟨entry, hEntry, hEnd⟩ := locate_false_of_true hLoc
  have hDirectory : t.isDirectoryAt entry = false := by
    rcases hEnd with rfl | hLeads
    · exact isDirectoryAt_of_isFileAt hFile
    · obtain ⟨target, hLink⟩ := hLeads.isLinkAt
      simp [isDirectoryAt, hLink]
  obtain ⟨front, last, hSegments⟩ : ∃ front last, segments p.chars = front ++ [last] :=
    ⟨_, _, (List.dropLast_concat_getLast (Path.segments_ne_nil p.chars)).symm⟩
  have hWalk := locate_eq_ok hLoc
  rw [hSegments] at hWalk
  obtain ⟨hTrivial, hParent⟩ := isName_of_walkTo (reached_nil t) hWalk hFile
  have hLast : lastSegment p = (some last, false) := by
    have hNil : last ≠ [] := by
      rintro rfl
      cases hTrivial
    simp [lastSegment, hSegments, hNil, List.isEmpty_iff]
  have hDot : last ≠ ['.'] := by
    rintro rfl
    cases hTrivial
  refine ⟨t.put entry (.file content mode), ?_⟩
  unfold replaceFile
  rw [modeOf_of_locate hLoc hNode, hLast, hEntry]
  simp only [bind, Except.bind, hDirectory, Bool.false_eq_true, if_false]

/-- A file is replaced where its path ends, a link not followed. -/
theorem replaceFile_eq_ok {t u : FileTree} {p : Path} {content : ByteArray}
    (h : t.replaceFile p content = .ok u) :
    ∃ mode entry, t.modeOf p = .ok mode ∧ t.locate false p = .ok entry ∧
      t.isDirectoryAt entry = false ∧ u = t.put entry (.file content mode) := by
  unfold replaceFile at h
  cases hMode : t.modeOf p with
  | error e =>
    rw [hMode] at h
    cases h
  | ok mode =>
    rw [hMode] at h
    simp only [bind, Except.bind] at h
    split at h
    · cases h
    · cases h
    · cases h
    · cases h
    · cases hEntry : t.locate false p with
      | error e =>
        rw [hEntry] at h
        cases h
      | ok entry =>
        rw [hEntry] at h
        dsimp only at h
        split at h
        · cases h
        · rename_i hDirectory
          exact ⟨mode, entry, rfl, rfl, Bool.eq_false_iff.mpr hDirectory, (Except.ok.inj h).symm⟩

theorem node?_put_of_ne_nil {t : FileTree} {loc : Location} (loc' : Location) (node : Node)
    (hLoc : loc ≠ []) :
    (t.put loc node).node? loc' = if loc' = loc then some node else t.node? loc' := by
  rw [node?_put]
  by_cases hRoot : loc' = []
  · rw [if_pos hRoot, hRoot, if_neg (Ne.symm hLoc), node?_nil]
  · rw [if_neg hRoot]

theorem ne_nil_of_not_directory {t : FileTree} {loc : Location}
    (h : t.isDirectoryAt loc = false) : loc ≠ [] := by
  rintro rfl
  simp [isDirectoryAt] at h

theorem Refilled.put {t u : FileTree} {entry : Location} {node : Node} (h : t.Refilled u)
    (hEntry : entry ≠ []) (hNode : t.Refills entry (some node)) : t.Refilled (u.put entry node) := by
  intro loc
  rw [node?_put_of_ne_nil loc node hEntry]
  split
  · rename_i hLoc
    rw [hLoc]
    exact hNode
  · exact h loc

/-- The paths lead to files, and no two of them to the same file. -/
def LeadApart (t : FileTree) (ps : List Path) : Prop :=
  (∀ p ∈ ps, t.isFile p = true) ∧ ps.Pairwise fun p q => t.locate true p ≠ t.locate true q

theorem LeadApart.eq_of_locate {t : FileTree} {ps : List Path} (h : t.LeadApart ps) {p q : Path}
    (hP : p ∈ ps) (hQ : q ∈ ps) (hSame : t.locate true p = t.locate true q) : p = q := by
  by_contra hNe
  have hSymm : Std.Symm fun p q : Path => t.locate true p ≠ t.locate true q :=
    ⟨fun _ _ hPQ hQP => hPQ hQP.symm⟩
  exact h.2.forall hP hQ hNe hSame

/-- The file a path leads to, and the entry that its last segment names. -/
theorem exists_entry {t : FileTree} {p : Path} (h : t.isFile p = true) :
    ∃ loc entry content mode, t.locate true p = .ok loc ∧ t.locate false p = .ok entry ∧
      t.node? loc = some (.file content mode) ∧ (entry = loc ∨ t.LeadsTo entry loc) := by
  obtain ⟨loc, hLoc, hFile⟩ := isFile_iff.mp h
  obtain ⟨content, mode, hNode⟩ := isFileAt_iff.mp hFile
  obtain ⟨entry, hEntry, hEnd⟩ := locate_false_of_true hLoc
  exact ⟨loc, entry, content, mode, hLoc, hEntry, hNode, hEnd⟩

theorem LeadsTo.node?_ne_file {t : FileTree} {entry loc : Location} (h : t.LeadsTo entry loc)
    (content : ByteArray) (mode : Nat) : t.node? entry ≠ some (.file content mode) := by
  obtain ⟨target, hLink⟩ := h.isLinkAt
  rw [hLink]
  exact nofun

/-- An entry is one file or leads to one. -/
theorem eq_of_entry_eq {t : FileTree} {entry loc loc' : Location} {content content' : ByteArray}
    {mode mode' : Nat} (hNode : t.node? loc = some (.file content mode))
    (hNode' : t.node? loc' = some (.file content' mode')) (hEnd : entry = loc ∨ t.LeadsTo entry loc)
    (hEnd' : entry = loc' ∨ t.LeadsTo entry loc') : loc = loc' := by
  rcases hEnd with rfl | hLeads
  · rcases hEnd' with rfl | hLeads'
    · rfl
    · exact absurd hNode (hLeads'.node?_ne_file content mode)
  · rcases hEnd' with rfl | hLeads'
    · exact absurd hNode' (hLeads.node?_ne_file content' mode')
    · exact hLeads.unique hLeads'

/-- Two paths that end in the same entry lead to the same file. -/
theorem locate_eq_of_entry_eq {t : FileTree} {p q : Path} (hP : t.isFile p = true)
    (hQ : t.isFile q = true) (h : t.locate false p = t.locate false q) :
    t.locate true p = t.locate true q := by
  obtain ⟨loc, entry, _, _, hLoc, hEntry, hNode, hEnd⟩ := exists_entry hP
  obtain ⟨loc', entry', _, _, hLoc', hEntry', hNode', hEnd'⟩ := exists_entry hQ
  rw [hEntry, hEntry'] at h
  cases h
  rw [hLoc, hLoc', eq_of_entry_eq hNode hNode' hEnd hEnd']

/-- Saving keeps modes, also that of a file whose link has given way to it. -/
theorem Refilled.modeOf_eq {t u : FileTree} {p : Path} (h : t.Refilled u)
    (hFile : t.isFile p = true) : u.modeOf p = t.modeOf p := by
  obtain ⟨loc, hLoc, hFileAt⟩ := isFile_iff.mp hFile
  obtain ⟨content, mode, hNode⟩ := isFileAt_iff.mp hFileAt
  rw [modeOf_of_locate hLoc hNode]
  rcases h.locate (hLoc ▸ nofun : t.locate true p ≠ .error .tooManyLinks) with
    hSame | ⟨-, entry, loc', hT, hU, hLeads, -, hIsFile⟩
  · have hRefills := h loc
    generalize hNew : u.node? loc = node at hRefills
    cases hRefills with
    | same => exact modeOf_of_locate (hSame.trans hLoc) (hNew.trans hNode)
    | file hOld =>
      rw [hNode] at hOld
      cases hOld
      exact modeOf_of_locate (hSame.trans hLoc) hNew
    | link hLink _ => exact absurd hNode (hLink.node?_ne_file content mode)
  · rw [hLoc] at hT
    cases hT
    have hRefills := h entry
    generalize hNew : u.node? entry = node at hRefills
    cases hRefills with
    | same =>
      obtain ⟨_, _, hFileNode⟩ := isFileAt_iff.mp hIsFile
      exact absurd (hNew.symm.trans hFileNode) (hLeads.node?_ne_file _ _)
    | file hOld => exact absurd hOld (hLeads.node?_ne_file _ _)
    | link hLink hOld =>
      rw [hLink.unique hLeads, hNode] at hOld
      cases hOld
      exact modeOf_of_locate hU hNew

/-- A file that no saved path leads to is where it was. -/
theorem Refilled.locate_eq_of_apart {t u : FileTree} {saved : List Path} {p : Path}
    (h : t.Refilled u)
    (hKept : ∀ loc, (∀ q ∈ saved, t.locate false q ≠ .ok loc) → u.node? loc = t.node? loc)
    (hSaved : ∀ q ∈ saved, t.isFile q = true ∧ t.locate true q ≠ t.locate true p)
    (hFile : t.isFile p = true) :
    ∃ loc, t.locate true p = .ok loc ∧ u.locate true p = .ok loc ∧ u.node? loc = t.node? loc := by
  obtain ⟨loc, entry, content, mode, hLoc, hEntry, hNode, hEnd⟩ := exists_entry hFile
  -- no saved path ends at the file itself or at a link that leads to it
  have hElsewhere : ∀ place, place = loc ∨ t.LeadsTo place loc →
      ∀ q ∈ saved, t.locate false q ≠ .ok place := by
    intro place hPlace q hQ hEntryQ
    obtain ⟨hFileQ, hApart⟩ := hSaved q hQ
    obtain ⟨locQ, entryQ, _, _, hLocQ, hEntryQ', hNodeQ, hEndQ⟩ := exists_entry hFileQ
    rw [hEntryQ] at hEntryQ'
    cases hEntryQ'
    apply hApart
    rw [hLocQ, hLoc, eq_of_entry_eq hNodeQ hNode hEndQ hPlace]
  refine ⟨loc, hLoc, ?_, hKept loc (hElsewhere loc (Or.inl rfl))⟩
  rcases h.locate (hLoc ▸ nofun : t.locate true p ≠ .error .tooManyLinks) with
    hSame | ⟨-, place, loc', hT, hU, hLeads, hFile, hIsFile⟩
  · rw [hSame, hLoc]
  · rw [hLoc] at hT
    cases hT
    have hKeptLink := hKept place (hElsewhere place (Or.inr hLeads))
    obtain ⟨_, _, hPlace⟩ := isFileAt_iff.mp hIsFile
    exact absurd (hKeptLink.symm.trans hPlace) (hLeads.node?_ne_file _ _)

section Apart

variable {t u : FileTree} {ps saved : List Path} {p : Path} (hApart : t.LeadApart ps)
  (hSaved : ∀ q ∈ saved, q ∈ ps) (hRefilled : t.Refilled u)
  (hKept : ∀ loc, (∀ q ∈ saved, t.locate false q ≠ .ok loc) → u.node? loc = t.node? loc)
include hApart hSaved hRefilled hKept

theorem LeadApart.locate_eq (hP : p ∈ ps) (hNew : p ∉ saved) :
    ∃ loc, t.locate true p = .ok loc ∧ u.locate true p = .ok loc ∧ u.node? loc = t.node? loc := by
  refine hRefilled.locate_eq_of_apart hKept (fun q hQ => ?_) (hApart.1 p hP)
  refine ⟨hApart.1 q (hSaved q hQ), fun hSame => ?_⟩
  exact hNew (hApart.eq_of_locate (hSaved q hQ) hP hSame ▸ hQ)

theorem LeadApart.readText_eq (hP : p ∈ ps) (hNew : p ∉ saved) : u.readText p = t.readText p := by
  obtain ⟨loc, hT, hU, hNode⟩ := hApart.locate_eq hSaved hRefilled hKept hP hNew
  exact readText_eq_of_locate hT hU hNode

end Apart

/-- Where a path ends does not change if links at its end are not followed. -/
theorem Refilled.locate_false {t u : FileTree} {p : Path} {entry : Location} (h : t.Refilled u)
    (hEntry : t.locate false p = .ok entry) : u.locate false p = .ok entry := by
  rcases h.locate (hEntry ▸ nofun : t.locate false p ≠ .error .tooManyLinks) with
    hSame | ⟨hFollow, -⟩
  · rw [hSame, hEntry]
  · cases hFollow

/-- A file is replaced where its path ends in the first tree, with the mode it had there. -/
theorem Refilled.exists_put {t u v : FileTree} {p : Path} {content : ByteArray} (h : t.Refilled u)
    (hFile : t.isFile p = true) (hReplace : u.replaceFile p content = .ok v) :
    ∃ mode entry, t.modeOf p = .ok mode ∧ t.locate false p = .ok entry ∧ entry ≠ [] ∧
      t.Refills entry (some (.file content mode)) ∧ v = u.put entry (.file content mode) := by
  obtain ⟨loc, entry, old, mode, hLoc, hEntry, hNode, hEnd⟩ := exists_entry hFile
  obtain ⟨mode', entry', hMode, hEntry', hDirectory, rfl⟩ := replaceFile_eq_ok hReplace
  rw [h.locate_false hEntry] at hEntry'
  cases hEntry'
  rw [h.modeOf_eq hFile, modeOf_of_locate hLoc hNode] at hMode
  cases hMode
  refine ⟨mode, entry, modeOf_of_locate hLoc hNode, hEntry, ne_nil_of_not_directory hDirectory, ?_,
    rfl⟩
  rcases hEnd with rfl | hLeads
  · exact .file hNode
  · exact .link hLeads hNode

/-- A path whose last entry has been saved leads to that entry. -/
theorem Refilled.locate_saved {t u : FileTree} {p : Path} {entry : Location} {content : ByteArray}
    {mode : Nat} (h : t.Refilled u) (hFile : t.isFile p = true)
    (hEntry : t.locate false p = .ok entry)
    (hNode : u.node? entry = some (.file content mode)) : u.locate true p = .ok entry := by
  obtain ⟨loc, hLoc, -⟩ := isFile_iff.mp hFile
  have hFound : ∃ place, u.locate true p = .ok place := by
    rcases h.locate (hLoc ▸ nofun : t.locate true p ≠ .error .tooManyLinks) with
      hSame | ⟨-, place, _, -, hU, -⟩
    · exact ⟨loc, hSame.trans hLoc⟩
    · exact ⟨place, hU⟩
  obtain ⟨place, hPlace⟩ := hFound
  obtain ⟨entry', hEntry', hEnd⟩ := locate_false_of_true hPlace
  rw [h.locate_false hEntry] at hEntry'
  cases hEntry'
  rcases hEnd with rfl | hLeads
  · exact hPlace
  · exact absurd hNode (hLeads.node?_ne_file content mode)

end ExplicitModules.FileTree
