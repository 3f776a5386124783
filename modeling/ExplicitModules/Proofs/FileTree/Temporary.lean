import ExplicitModules.FileTree.Temporary
import ExplicitModules.Proofs.FileTree.Relocation
import ExplicitModules.Proofs.FileTree.Saving

/-!
# Temporary files leave no trace

As long as a temporary file is there, all paths that led somewhere lead there still. When it has
been moved or removed the tree is the one that it would be if the file had never been there.
-/
namespace ExplicitModules.FileTree
set_option autoImplicit false
open ExplicitModules.Path (segments isTrivial)

variable {t u : FileTree} {loc place : Location} {p : Path}

section Entries

theorem ne_of_mem_entries (hLoc : loc ≠ []) (h : t.node? loc = none) :
    ∀ entry ∈ t.entries, entry.1 ≠ loc := by
  rintro ⟨key, node⟩ hMem rfl
  rw [node?, if_neg hLoc, List.lookup_eq_none_iff] at h
  simpa using h _ hMem

theorem put_of_missing (hLoc : loc ≠ []) (h : t.node? loc = none) (node : Node) :
    t.put loc node = ⟨(loc, node) :: t.entries⟩ := by
  have hAbsent : ¬(t.entries.any fun entry => entry.1 == loc) = true := by
    rw [List.any_eq_true]
    rintro ⟨entry, hMem, hKey⟩
    exact ne_of_mem_entries hLoc h entry hMem (beq_iff_eq.mp hKey)
  rw [put, if_neg hAbsent]

theorem replaced_key (loc : Location) (node : Node) (entry : Location × Node) :
    (if entry.1 = loc then (loc, node) else entry).1 = entry.1 := by
  split
  · rename_i hEntry
    exact hEntry.symm
  · rfl

theorem put_put (hLoc : loc ≠ []) (h : t.node? loc = none) (a b : Node) :
    (t.put loc a).put loc b = t.put loc b := by
  have hKept : ∀ entry ∈ t.entries, (if entry.1 = loc then (loc, b) else entry) = id entry := by
    intro entry hMem
    rw [if_neg (ne_of_mem_entries hLoc h entry hMem), id]
  rw [put_of_missing hLoc h, put_of_missing hLoc h, put, if_pos (by simp), List.map_cons,
    if_pos rfl, List.map_congr_left hKept, List.map_id]

theorem dropAt_put (hLoc : loc ≠ []) (h : t.node? loc = none) (node : Node) :
    (t.put loc node).dropAt loc = t := by
  have hKept : ∀ entry ∈ t.entries, decide (entry.1 ≠ loc) = true := fun entry hMem =>
    decide_eq_true (ne_of_mem_entries hLoc h entry hMem)
  rw [put_of_missing hLoc h, dropAt, List.filter_cons_of_neg (by simp),
    List.filter_eq_self.mpr hKept]

/-- An entry that comes and goes makes no difference to what is put elsewhere. -/
theorem dropAt_put_put (hLoc : loc ≠ []) (h : t.node? loc = none) (hPlace : place ≠ loc)
    (a b : Node) : ((t.put loc a).put place b).dropAt loc = t.put place b := by
  have hKeys := ne_of_mem_entries hLoc h
  have hSame : (((loc, a) :: t.entries).any fun entry => entry.1 == place) =
      t.entries.any fun entry => entry.1 == place := by
    simp [Ne.symm hPlace]
  rw [put_of_missing hLoc h]
  unfold put
  dsimp only
  rw [hSame]
  split
  · rw [dropAt, List.map_cons, if_neg (Ne.symm hPlace), List.filter_cons_of_neg (by simp),
      FileTree.mk.injEq, List.filter_eq_self]
    intro entry hMem
    obtain ⟨old, hOld, rfl⟩ := List.mem_map.mp hMem
    rw [replaced_key]
    exact decide_eq_true (hKeys old hOld)
  · rw [dropAt, List.filter_cons_of_pos (by simpa using hPlace),
      List.filter_cons_of_neg (by simp), FileTree.mk.injEq, List.cons.injEq, List.filter_eq_self]
    refine ⟨rfl, ?_⟩
    intro entry hMem
    exact decide_eq_true (hKeys entry hMem)

end Entries

section Steps

variable {follow : Bool} {links : Nat} {current next : Location} {segment : List Char}
  {link : Option String} {pending : List (List Char)}

def targetOf? : Node → Option String
  | .link target => some target
  | _ => none

/-- A step that names an entry is decided by what the entry is. -/
theorem stepTo_entry (hTrivial : isTrivial segment = false) (hParent : segment ≠ ['.', '.'])
    (hDirectory : t.isDirectoryAt current = true) (hShort : ¬maxName < Text.utf8Length segment)
    {node : Node} (hNode : t.node? (current ++ [String.ofList segment]) = some node) :
    t.stepTo current segment = .ok (current ++ [String.ofList segment], targetOf? node) := by
  rw [stepTo, if_pos hDirectory, if_neg (by simp [hTrivial]), if_neg hParent, if_neg hShort]
  dsimp only
  rw [hNode]
  cases node <;> rfl

theorem length_of_stepTo (hTrivial : isTrivial segment = false) (hParent : segment ≠ ['.', '.'])
    (hStep : t.stepTo current segment = .ok (next, link)) :
    ¬maxName < Text.utf8Length segment := by
  intro hLong
  rw [stepTo, if_pos (stepTo_cases hStep).1, if_neg (by simp [hTrivial]), if_neg hParent,
    if_pos hLong] at hStep
  cases hStep

theorem stepTo_of_kept (hDirectory : u.isDirectoryAt current = true)
    (hStep : t.stepTo current segment = .ok (next, link))
    (hNode : ∀ node, t.node? next = some node → u.node? next = some node) :
    u.stepTo current segment = .ok (next, link) := by
  rcases stepTo_cases hStep with ⟨hHere, ⟨hTrivial, rfl, rfl⟩ | ⟨hTrivial, rfl, rfl, rfl⟩ |
    ⟨hTrivial, hParent, rfl, node, hOld, -⟩⟩
  · rw [stepTo, if_pos hDirectory, if_pos hTrivial]
  · rw [stepTo, if_pos hDirectory, if_neg (by simp [hTrivial]), if_pos rfl]
  · have hShort := length_of_stepTo hTrivial hParent hStep
    rw [stepTo_entry hTrivial hParent hHere hShort hOld] at hStep
    rw [stepTo_entry hTrivial hParent hDirectory hShort (hNode node hOld), hStep]

def KeptBy (t u : FileTree) : Prop :=
  ∀ loc node, t.node? loc = some node → u.node? loc = some node

theorem keptBy_put (hLoc : loc ≠ []) (h : t.node? loc = none) (node : Node) :
    t.KeptBy (t.put loc node) := by
  intro loc' old hOld
  rw [node?_put_of_ne_nil loc' node hLoc, if_neg]
  · exact hOld
  · rintro rfl
    rw [h] at hOld
    cases hOld

section Kept

variable (h : t.KeptBy u)
include h

theorem KeptBy.isDirectoryAt (hDirectory : t.isDirectoryAt loc = true) :
    u.isDirectoryAt loc = true := by
  obtain ⟨mode, hNode⟩ := isDirectoryAt_iff.mp hDirectory
  exact isDirectoryAt_iff.mpr ⟨mode, h loc _ hNode⟩

theorem KeptBy.walkTo (hWalk : t.walkTo follow links current pending = .ok loc) :
    u.walkTo follow links current pending = .ok loc := by
  induction links, current, pending using walk_induction with
  | nil links current =>
    rw [walkTo_nil] at hWalk ⊢
    exact hWalk
  | cons links current segment rest ihRest ihLink =>
    cases hStep : t.stepTo current segment with
    | error e =>
      rw [walkTo_cons_of_error hStep] at hWalk
      cases hWalk
    | ok found =>
      obtain ⟨next, link⟩ := found
      have hSame := stepTo_of_kept (h.isDirectoryAt (stepTo_cases hStep).1) hStep (h next)
      cases link with
      | none =>
        rw [walkTo_cons_of_none hStep] at hWalk
        rw [walkTo_cons_of_none hSame]
        exact ihRest next hWalk
      | some target =>
        by_cases hLast : rest = [] ∧ follow = false
        · obtain ⟨rfl, rfl⟩ := hLast
          rw [walkTo_last hStep] at hWalk
          rw [walkTo_last hSame]
          exact hWalk
        · have hOn : follow = true ∨ rest ≠ [] := by
            by_contra hNot
            exact hLast (last_of_not_on hNot).symm
          cases links with
          | zero =>
            rw [walkTo_cons_zero hStep hOn] at hWalk
            cases hWalk
          | succ links =>
            rw [walkTo_cons_succ hStep hOn] at hWalk
            rw [walkTo_cons_succ hSame hOn]
            exact ihLink links (Nat.lt_succ_self links) _ _ hWalk

end Kept

end Steps

section Slots

variable {follow : Bool} {last : List Char} {entry : Location}

theorem segments_eq_of_lastSegment (h : lastSegment p = (some last, false)) :
    segments p.chars = (segments p.chars).dropLast ++ [last] ∧ last ≠ [] := by
  obtain ⟨front, end', hSegments⟩ : ∃ front end', segments p.chars = front ++ [end'] :=
    ⟨_, _, (List.dropLast_concat_getLast (Path.segments_ne_nil p.chars)).symm⟩
  simp only [lastSegment, hSegments, List.reverse_append, List.reverse_singleton,
    List.singleton_append, List.head?_cons, Prod.mk.injEq, beq_eq_false_iff_ne, ne_eq,
    Option.some.injEq] at h
  obtain ⟨hHead, hNil⟩ := h
  rw [List.dropWhile_cons_of_neg (by simpa using hNil), List.head?_cons, Option.some.injEq] at hHead
  subst hHead
  rw [hSegments, List.dropLast_concat]
  exact ⟨rfl, hNil⟩

theorem lastSegment_of_slot (h : t.slot p = .ok place) :
    ∃ last, lastSegment p = (some last, false) ∧ last ≠ ['.'] ∧ last ≠ ['.', '.'] := by
  unfold slot at h
  split_ifs at h
  split at h
  · cases h
  · cases h
  · cases h
  · cases h
  · rename_i last hDot hParent hLast
    exact ⟨last, hLast, hDot, hParent⟩

/-- All segments of the path but the last lead to `directory`, and the last is a name. -/
structure HasSlot (t : FileTree) (p : Path) (directory : Location) (last : List Char) : Prop where
  segments_eq : segments p.chars = (segments p.chars).dropLast ++ [last]
  not_trivial : isTrivial last = false
  not_parent : last ≠ ['.', '.']
  short : ¬maxName < Text.utf8Length last
  walk : t.walkTo true maxLinks [] (segments p.chars).dropLast = .ok directory
  isDirectory : t.isDirectoryAt directory = true

theorem exists_hasSlot (h : t.slot p = .ok place) :
    ∃ directory last, t.HasSlot p directory last ∧ place = directory ++ [String.ofList last] := by
  obtain ⟨last, hLast, hDot, hParent⟩ := lastSegment_of_slot h
  obtain ⟨hSegments, hNil⟩ := segments_eq_of_lastSegment hLast
  have hTrivial : isTrivial last = false := by simp [isTrivial, hNil, hDot]
  unfold slot at h
  split_ifs at h
  simp only [hLast] at h
  split at h
  · cases h
  · rename_i directory hWalk
    split_ifs at h with hDirectory hLong
    have hDirectory : t.isDirectoryAt directory = true := by simpa using hDirectory
    exact ⟨directory, last, ⟨hSegments, hTrivial, hParent, hLong, hWalk, hDirectory⟩,
      (Except.ok.inj h).symm⟩

theorem ne_nil_of_slot (h : t.slot p = .ok place) : place ≠ [] := by
  obtain ⟨directory, last, -, rfl⟩ := exists_hasSlot h
  exact List.append_ne_nil_of_right_ne_nil _ (List.cons_ne_nil _ _)

/-- A path that names a place can be looked up in every tree. -/
theorem locate_of_slot_eq (h : t.slot p = .ok place) (u : FileTree) (follow : Bool) :
    u.locate follow p = u.walkTo follow maxLinks [] (segments p.chars) := by
  unfold slot at h
  split_ifs at h with hLength hNul hEmpty
  rw [locate, if_neg hLength, trace, if_neg hNul, if_neg hEmpty]

/-- A file at the place that a path names is where the path leads. -/
theorem locate_of_slot {content : ByteArray} {mode : Nat} (h : t.slot p = .ok place)
    (hKept : t.KeptBy u) (hNode : u.node? place = some (.file content mode)) (follow : Bool) :
    u.locate follow p = .ok place := by
  obtain ⟨directory, last, hSlot, rfl⟩ := exists_hasSlot h
  have hStep := stepTo_entry hSlot.not_trivial hSlot.not_parent
    (hKept.isDirectoryAt hSlot.isDirectory) hSlot.short hNode
  rw [locate_of_slot_eq h, hSlot.segments_eq]
  rcases walkTo_append (hKept.walkTo hSlot.walk) maxLinks [last] (Or.inr (List.cons_ne_nil _ _))
    with ⟨hFewer, -⟩ | ⟨left, hSame⟩
  · exact absurd hFewer (Nat.lt_irrefl _)
  · rw [hSame, walkTo_cons_of_none hStep, walkTo_nil]

/-- The entry that a path leads to is at the place that its last segment names. -/
theorem slot_of_locate (hLoc : t.locate true p = .ok loc) (hEntry : t.locate false p = .ok entry)
    (hLast : lastSegment p = (some last, false)) (hDot : last ≠ ['.'])
    (hParent : last ≠ ['.', '.']) (hKept : t.KeptBy u) : u.slot p = .ok entry := by
  obtain ⟨hSegments, hNil⟩ := segments_eq_of_lastSegment hLast
  have hTrivial : isTrivial last = false := by simp [isTrivial, hNil, hDot]
  have hWalk := locate_eq_ok hLoc
  have hEnd := locate_eq_ok hEntry
  rw [hSegments] at hWalk hEnd
  obtain ⟨directory, left, -, hFront, hBack⟩ := walkTo_split hWalk
  -- the last step is the same whether a link at the end is followed or not
  obtain ⟨place, link, hStep⟩ : ∃ place link, t.stepTo directory last = .ok (place, link) := by
    rcases walkTo_cons_eq_ok hBack with ⟨next, hStep, -⟩ | ⟨next, target, _, -, hStep, -⟩
    · exact ⟨next, none, hStep⟩
    · exact ⟨next, some target, hStep⟩
  have hPlace : entry = place := by
    rcases walkTo_append hFront maxLinks [last] (Or.inr (List.cons_ne_nil _ _)) with
      ⟨hFewer, -⟩ | ⟨left, hSame⟩
    · exact absurd hFewer (Nat.lt_irrefl _)
    · rw [hEnd] at hSame
      cases link with
      | none =>
        rw [walkTo_cons_of_none hStep, walkTo_nil] at hSame
        exact Except.ok.inj hSame
      | some target =>
        rw [walkTo_last hStep] at hSame
        exact Except.ok.inj hSame
  have hShort := length_of_stepTo hTrivial hParent hStep
  have hDirectory := hKept.isDirectoryAt (stepTo_cases hStep).1
  obtain rfl : place = directory ++ [String.ofList last] := by
    rcases (stepTo_cases hStep).2 with ⟨hSome, -⟩ | ⟨-, hUp, -⟩ | ⟨-, -, hNext, -⟩
    · rw [hTrivial] at hSome
      cases hSome
    · exact absurd hUp hParent
    · exact hNext
  obtain ⟨hLength, hNul, hEmpty⟩ := text_of_locate hLoc
  rw [hPlace, slot, if_neg hLength, if_neg hNul, if_neg hEmpty, hLast]
  simp only [hKept.walkTo hFront, hDirectory, Bool.true_eq_false, if_false, if_neg hShort]

end Slots

section Replaced

variable {entry current next : Location} {segment : List Char} {link : Option String}
  {pending : List (List Char)} {links : Nat} {content : ByteArray} {mode : Nat}
  (hEntry : t.isDirectoryAt entry = false)
  (hFile : u.node? entry = some (.file content mode))
  (hElsewhere : ∀ loc, loc ≠ entry → u.node? loc = t.node? loc)
include hEntry hFile hElsewhere

/-- Where a file has come in place of an entry that was no directory, only the step to that entry is
another: no link is met there. -/
theorem stepTo_replaced (hReached : t.Reached current)
    (hStep : t.stepTo current segment = .ok (next, link)) :
    u.stepTo current segment = .ok (next, if next = entry then none else link) := by
  have hApart : ∀ loc, t.isDirectoryAt loc = true → loc ≠ entry := by
    rintro loc hDirectory rfl
    rw [hEntry] at hDirectory
    cases hDirectory
  have hHere := (stepTo_cases hStep).1
  have hSame := hElsewhere current (hApart current hHere)
  have hDirectory : u.isDirectoryAt current = true := by
    rw [isDirectoryAt, hSame]
    exact hHere
  by_cases hNext : next = entry
  · rw [if_pos hNext]
    rcases (stepTo_cases hStep).2 with ⟨-, rfl, -⟩ | ⟨-, -, rfl, -⟩ | ⟨hTrivial, hParent, rfl, -⟩
    · exact absurd hNext (hApart next hHere)
    · exact absurd hNext (hApart _ (hReached.dropLast hHere).2)
    · have hShort := length_of_stepTo hTrivial hParent hStep
      rw [hNext.symm] at hFile
      exact stepTo_entry hTrivial hParent hDirectory hShort hFile
  · rw [if_neg hNext]
    exact stepTo_of_kept hDirectory hStep fun node hNode => (hElsewhere next hNext).trans hNode

/-- A walk that ended at the entry does so again, unless it went on through the entry as well, which
was a link to a directory then. -/
theorem walkTo_replaced (hReached : t.Reached current)
    (hTrue : t.walkTo true links current pending = .ok loc)
    (hFalse : t.walkTo false links current pending = .ok entry) :
    u.walkTo false links current pending = .ok entry ∨
      u.walkTo false links current pending = .error .notDirectory ∧
        ∃ directory, t.LeadsTo entry directory ∧ t.isDirectoryAt directory = true := by
  have hNotDirectory : u.isDirectoryAt entry = false := by rw [isDirectoryAt, hFile]
  induction links, current, pending using walk_induction with
  | nil links current =>
    rw [walkTo_nil] at hFalse ⊢
    exact Or.inl hFalse
  | cons links current segment rest ihRest ihLink =>
    rcases walkTo_cons_eq_ok hTrue with ⟨next, hStep, hTrue⟩ |
      ⟨next, target, links, rfl, hStep, hTrue⟩
    · have hSame := stepTo_replaced hEntry hFile hElsewhere hReached hStep
      rw [ite_self] at hSame
      rw [walkTo_cons_of_none hStep] at hFalse
      rw [walkTo_cons_of_none hSame]
      exact ihRest next (stepTo_reached hReached hStep).2.1 hTrue hFalse
    · have hSame := stepTo_replaced hEntry hFile hElsewhere hReached hStep
      obtain ⟨hParent, hNode⟩ := stepTo_eq_link hStep
      -- a link that is the entry itself has given way to the file, where the walk ends now
      by_cases hNext : next = entry
      · subst hNext
        rw [if_pos rfl] at hSame
        rw [walkTo_cons_of_none hSame]
        cases rest with
        | nil => exact Or.inl (walkTo_nil _ _ _ _)
        | cons second rest =>
          obtain ⟨directory, left, -, hFront, hBack⟩ := walkTo_split hTrue
          refine Or.inr ⟨walkTo_cons_of_error (stepTo_of_not_directory hNotDirectory), directory,
            ⟨target, links, hNode, hParent ▸ hFront⟩, ?_⟩
          by_contra hOther
          have hOther : t.isDirectoryAt directory = false := Bool.eq_false_iff.mpr hOther
          rw [walkTo_cons_of_error (stepTo_of_not_directory hOther)] at hBack
          cases hBack
      · rw [if_neg hNext] at hSame
        cases rest with
        | nil =>
          rw [walkTo_last hStep] at hFalse
          exact absurd (Except.ok.inj hFalse) hNext
        | cons second rest =>
          have hOn : false = true ∨ second :: rest ≠ [] := Or.inr (List.cons_ne_nil _ _)
          rw [walkTo_cons_succ hStep hOn] at hFalse
          rw [walkTo_cons_succ hSame hOn]
          exact ihLink links (Nat.lt_succ_self links) _ _ (hReached.linkStart target) hTrue hFalse

end Replaced

end ExplicitModules.FileTree
