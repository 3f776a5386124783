import ExplicitModules.Proofs.Path.Behind

/-!
# The same directory elsewhere

Two directories that hold the same entries, with links that do not lead out of them. Looking up a path
below the one and below the other goes the same way, step by step, as long as no `..` leaves them.
-/
namespace ExplicitModules
set_option autoImplicit false
open ExplicitModules.Path (segments isTrivial)

namespace FileTree

/-- A link below `r` holds a relative path that, followed segment by segment, stays below `r`. -/
def Confined (t : FileTree) (r : Location) : Prop :=
  ∀ x name target, t.node? (r ++ x ++ [name]) = some (.link target) →
    target.toList.head? ≠ some '/' ∧ ∀ front back, segments target.toList = front ++ back →
      ∀ links loc, t.walkTo true links (r ++ x) front = .ok loc → r <+: loc

/-- The directory `r` of one tree holds what the directory `s` of another holds. -/
structure Relocation (t u : FileTree) (r s : Location) : Prop where
  source_ne_nil : r ≠ []
  target_ne_nil : s ≠ []
  source : t.isDirectoryAt r = true
  target : u.isDirectoryAt s = true
  same : ∀ x, x ≠ [] → t.node? (r ++ x) = u.node? (s ++ x)
  confined : t.Confined r

section Walks

variable {t u : FileTree} {r s x : Location} {pending : List (List Char)} {links : Nat}

/-- Walking a part of `pending` from `current` never leads out of `r`. -/
def Stays (t : FileTree) (r current : Location) (pending : List (List Char)) : Prop :=
  ∀ front back, pending = front ++ back → ∀ links loc,
    t.walkTo true links current front = .ok loc → r <+: loc

/-- A walk that arrives has arrived somewhere with each part of the way. -/
theorem walkTo_split {current loc : Location} {front back : List (List Char)}
    (h : t.walkTo true links current (front ++ back) = .ok loc) :
    ∃ mid left, left ≤ links ∧ t.walkTo true links current front = .ok mid ∧
      t.walkTo true left mid back = .ok loc := by
  induction links, current, front using walk_induction with
  | nil links current => exact ⟨current, links, Nat.le_refl _, walkTo_nil t true links current, h⟩
  | cons links current segment rest ihRest ihLink =>
    rw [List.cons_append] at h
    rcases walkTo_cons_eq_ok h with ⟨next, hStep, h⟩ | ⟨next, target, links, rfl, hStep, h⟩
    · rw [walkTo_cons_of_none hStep]
      exact ihRest next h
    · rw [← List.append_assoc] at h
      obtain ⟨mid, left, hLeft, hFront, hBack⟩ := ihLink links (Nat.lt_succ_self links) _ _ h
      rw [walkTo_cons_succ hStep (Or.inl rfl)]
      exact ⟨mid, left, Nat.le_succ_of_le hLeft, hFront, hBack⟩

theorem Confined.linkStart_eq {next : Location} {segment : List Char} {target : String}
    (h : t.Confined r) (hStep : t.stepTo (r ++ x) segment = .ok (next, some target)) :
    linkStart (r ++ x) target = r ++ x ∧ ∃ name, t.node? (r ++ x ++ [name]) = some (.link target) := by
  obtain ⟨name, hNode⟩ : ∃ name, t.node? (r ++ x ++ [name]) = some (.link target) := by
    rcases (stepTo_cases hStep).2 with ⟨-, -, hNone⟩ | ⟨-, -, -, hNone⟩ | ⟨-, -, rfl, node, hNode, hLink⟩
    · cases hNone
    · cases hNone
    · rw [(hLink target).mp rfl] at hNode
      exact ⟨_, hNode⟩
  exact ⟨if_neg (h x name target hNode).1, name, hNode⟩

theorem prefix_of_stepTo {current next : Location} {segment : List Char}
    (hStep : t.stepTo current segment = .ok (next, none)) (hUp : segment ≠ ['.', '.']) :
    current <+: next := by
  rcases (stepTo_cases hStep).2 with ⟨-, rfl, -⟩ | ⟨-, hParent, -⟩ | ⟨-, -, rfl, -⟩
  · exact List.prefix_rfl
  · exact absurd hParent hUp
  · exact List.prefix_append _ _

/-- Without `..` of its own a way out of `r` would have to lead through a link. -/
theorem Confined.prefix_of_walkTo {loc : Location} (h : t.Confined r)
    (hUp : ['.', '.'] ∉ pending) (hWalk : t.walkTo true links (r ++ x) pending = .ok loc) :
    r <+: loc := by
  obtain ⟨current, hCurrent⟩ : ∃ current, current = r ++ x := ⟨_, rfl⟩
  rw [← hCurrent] at hWalk
  induction links, current, pending using walk_induction generalizing x with
  | nil links current =>
    rw [walkTo_nil] at hWalk
    cases hWalk
    exact ⟨x, hCurrent.symm⟩
  | cons links current segment rest ihRest ihLink =>
    subst hCurrent
    rw [List.mem_cons, not_or] at hUp
    rcases walkTo_cons_eq_ok hWalk with ⟨next, hStep, hWalk⟩ | ⟨next, target, links, rfl, hStep, hWalk⟩
    · obtain ⟨y, rfl⟩ := (List.prefix_append r x).trans (prefix_of_stepTo hStep (Ne.symm hUp.1))
      exact ihRest _ hUp.2 hWalk rfl
    · obtain ⟨hStart, name, hNode⟩ := h.linkStart_eq hStep
      rw [hStart] at hWalk
      obtain ⟨mid, left, hLeft, hFront, hBack⟩ := walkTo_split hWalk
      obtain ⟨y, rfl⟩ := (h x name target hNode).2 _ [] (List.append_nil _).symm _ _ hFront
      exact ihLink left (Nat.lt_succ_of_le hLeft) _ _ hUp.2 hBack rfl

theorem Confined.stays (h : t.Confined r) (hUp : ['.', '.'] ∉ pending) : t.Stays r (r ++ x) pending := by
  rintro front back rfl links loc hWalk
  exact h.prefix_of_walkTo (fun hMem => hUp (List.mem_append_left back hMem)) hWalk

namespace Stays

variable {current next : Location} {segment : List Char} {rest : List (List Char)}

theorem step (h : t.Stays r current (segment :: rest))
    (hStep : t.stepTo current segment = .ok (next, none)) : t.Stays r next rest := by
  rintro front back rfl links loc hWalk
  exact h (segment :: front) back rfl links loc (by rwa [walkTo_cons_of_none hStep])

theorem behind_link {target : String} (h : t.Stays r (r ++ x) (segment :: rest)) (hLinks : t.Confined r)
    (hStep : t.stepTo (r ++ x) segment = .ok (next, some target)) :
    t.Stays r (r ++ x) (segments target.toList ++ rest) := by
  obtain ⟨hStart, name, hNode⟩ := hLinks.linkStart_eq hStep
  intro front back hSplit links loc hWalk
  rcases List.append_eq_append_iff.mp hSplit with ⟨more, rfl, rfl⟩ | ⟨more, hTarget, -⟩
  · refine h (segment :: more) back rfl (links + 1) loc ?_
    rwa [walkTo_cons_succ hStep (Or.inl rfl), hStart]
  · exact (hLinks x name target hNode).2 front more hTarget links loc hWalk

theorem not_up (h : t.Stays r r (['.', '.'] :: rest)) (hSome : r ≠ [])
    (hDirectory : t.isDirectoryAt r = true) : False := by
  have hStep : t.stepTo r ['.', '.'] = .ok (r.dropLast, none) := by
    simp [stepTo, hDirectory, isTrivial]
  have hAbove := h [['.', '.']] rest rfl 0 r.dropLast (by rw [walkTo_cons_of_none hStep, walkTo_nil])
  have hLength := hAbove.length_le
  rw [List.length_dropLast] at hLength
  have hPositive := List.length_pos_iff.mpr hSome
  omega

end Stays

namespace Relocation

theorem isDirectoryAt_eq (h : Relocation t u r s) (x : Location) :
    t.isDirectoryAt (r ++ x) = u.isDirectoryAt (s ++ x) := by
  by_cases hRoot : x = []
  · rw [hRoot, List.append_nil, List.append_nil, h.source, h.target]
  · rw [isDirectoryAt, isDirectoryAt, h.same x hRoot]

theorem stepTo (h : Relocation t u r s) {segment : List Char}
    (hUp : segment = ['.', '.'] → x ≠ []) :
    ∃ outcome : Except FileError (Location × Option String),
      t.stepTo (r ++ x) segment = outcome.map (fun f => (r ++ f.1, f.2)) ∧
      u.stepTo (s ++ x) segment = outcome.map (fun f => (s ++ f.1, f.2)) := by
  unfold FileTree.stepTo
  rw [h.isDirectoryAt_eq x]
  split
  · split
    · exact ⟨.ok (x, none), rfl, rfl⟩
    · split
      · rename_i hParent
        refine ⟨.ok (x.dropLast, none), ?_, ?_⟩
        · rw [List.dropLast_append_of_ne_nil (hUp hParent)]
          rfl
        · rw [List.dropLast_append_of_ne_nil (hUp hParent)]
          rfl
      · split
        · exact ⟨.error .nameTooLong, rfl, rfl⟩
        · dsimp only
          rw [List.append_assoc, List.append_assoc, h.same _ (by simp)]
          cases u.node? (s ++ (x ++ [String.ofList segment])) with
          | none => exact ⟨.error .notFound, rfl, rfl⟩
          | some node =>
            cases node with
            | link target => exact ⟨.ok (x ++ [String.ofList segment], some target), rfl, rfl⟩
            | file content mode => exact ⟨.ok (x ++ [String.ofList segment], none), rfl, rfl⟩
            | directory mode => exact ⟨.ok (x ++ [String.ofList segment], none), rfl, rfl⟩
  · exact ⟨.error .notDirectory, rfl, rfl⟩

/-- A way that stays below `r` leads to the same place below `s`. -/
theorem walkTo (h : Relocation t u r s) (follow : Bool) (links : Nat)
    (hStays : t.Stays r (r ++ x) pending) : ∃ outcome : Except FileError Location,
      t.walkTo follow links (r ++ x) pending = outcome.map (r ++ ·) ∧
      u.walkTo follow links (s ++ x) pending = outcome.map (s ++ ·) := by
  obtain ⟨current, hCurrent⟩ : ∃ current, current = r ++ x := ⟨_, rfl⟩
  rw [← hCurrent] at hStays ⊢
  induction links, current, pending using walk_induction generalizing x with
  | nil links current =>
    rw [walkTo_nil, walkTo_nil, hCurrent]
    exact ⟨.ok x, rfl, rfl⟩
  | cons links current segment rest ihRest ihLink =>
    subst hCurrent
    have hUp : segment = ['.', '.'] → x ≠ [] := by
      rintro rfl rfl
      rw [List.append_nil] at hStays
      exact hStays.not_up h.source_ne_nil h.source
    obtain ⟨outcome, hT, hU⟩ := h.stepTo hUp
    cases outcome with
    | error e =>
      rw [walkTo_cons_of_error hT, walkTo_cons_of_error hU]
      exact ⟨.error e, rfl, rfl⟩
    | ok found =>
      obtain ⟨y, link⟩ := found
      cases link with
      | none =>
        rw [walkTo_cons_of_none hT, walkTo_cons_of_none hU]
        exact ihRest _ (hStays.step hT) rfl
      | some target =>
        by_cases hOn : follow = true ∨ rest ≠ []
        · cases links with
          | zero =>
            rw [walkTo_cons_zero hT hOn, walkTo_cons_zero hU hOn]
            exact ⟨.error .tooManyLinks, rfl, rfl⟩
          | succ links =>
            obtain ⟨hStart, name, hNode⟩ := h.confined.linkStart_eq hT
            have hStart' : linkStart (s ++ x) target = s ++ x :=
              if_neg (h.confined x name target hNode).1
            rw [walkTo_cons_succ hT hOn, walkTo_cons_succ hU hOn, hStart, hStart']
            exact ihLink links (Nat.lt_succ_self links) _ _ (hStays.behind_link h.confined hT) rfl
        · obtain ⟨hFollow, rfl⟩ : follow = false ∧ rest = [] := by simpa using hOn
          rw [hFollow, walkTo_last hT, walkTo_last hU]
          exact ⟨.ok y, rfl, rfl⟩

theorem symm (h : Relocation t u r s) : Relocation u t s r where
  source_ne_nil := h.target_ne_nil
  target_ne_nil := h.source_ne_nil
  source := h.target
  target := h.source
  same x hx := (h.same x hx).symm
  confined := by
    intro x name target hNode
    rw [List.append_assoc, ← h.same _ (by simp), ← List.append_assoc] at hNode
    obtain ⟨hRelative, hFronts⟩ := h.confined x name target hNode
    refine ⟨hRelative, fun front back hSplit links loc hWalk => ?_⟩
    have hStays : t.Stays r (r ++ x) front := by
      rintro first later rfl
      exact hFronts first (later ++ back) (by rw [hSplit, List.append_assoc])
    obtain ⟨outcome, -, hU⟩ := h.walkTo true links hStays
    rw [hWalk] at hU
    cases outcome with
    | error e => cases hU
    | ok y =>
      cases hU
      exact List.prefix_append s y

end Relocation

end Walks

section Roots

variable {t : FileTree} {r : Location}

/-- The plain path of `r` leads there. -/
structure Spelled (t : FileTree) (r : Location) : Prop where
  names : ∀ n ∈ r, Path.IsName n
  located : t.locate true (pathOf r) = .ok r

/-- Names that lead through directories are walked one by one, whatever is behind them. -/
theorem walkTo_through {enough : Nat} {current loc names : Location}
    (hNames : ∀ n ∈ names, Path.IsName n)
    (hDirectories : ∀ front, front <+: names → t.isDirectoryAt (current ++ front) = true)
    (hWalk : t.walkTo true enough current (names.map String.toList) = .ok loc) (follow : Bool)
    (links : Nat) (back : List (List Char)) :
    t.walkTo follow links current (names.map String.toList ++ back) =
      t.walkTo follow links (current ++ names) back := by
  induction names generalizing current with
  | nil => rw [List.map_nil, List.nil_append, List.append_nil]
  | cons name names ih =>
    rw [List.forall_mem_cons] at hNames
    have hHere : t.isDirectoryAt current = true := by simpa using hDirectories [] List.nil_prefix
    have hNext : t.isDirectoryAt (current ++ [name]) = true := hDirectories [name] (by simp)
    obtain ⟨mode, hNode⟩ := isDirectoryAt_iff.mp hNext
    rw [List.map_cons] at hWalk ⊢
    rcases stepTo_name hNames.1 hHere hNode nofun with hStep | hStep
    · rw [walkTo_cons_of_none hStep] at hWalk
      rw [List.cons_append, walkTo_cons_of_none hStep, ih hNames.2 ?_ hWalk, List.append_assoc,
        List.singleton_append]
      intro front hFront
      rw [List.append_assoc]
      exact hDirectories _ (List.cons_prefix_cons.mpr ⟨rfl, hFront⟩)
    · rw [walkTo_cons_of_error hStep] at hWalk
      cases hWalk

theorem Spelled.walkTo (h : t.Spelled r) (hSome : r ≠ []) (hDirectory : t.isDirectoryAt r = true)
    (follow : Bool) (links : Nat) (back : List (List Char)) :
    t.walkTo follow links [] (segments (pathOf r).chars ++ back) = t.walkTo follow links r back := by
  have hStep : t.stepTo [] [] = .ok ([], none) := by
    have hRoot : t.isDirectoryAt [] = true := rfl
    simp [stepTo, hRoot, isTrivial]
  have hWalk := locate_eq_ok h.located
  rw [segments_pathOf h.names hSome, walkTo_cons_of_none hStep] at hWalk
  rw [segments_pathOf h.names hSome, List.cons_append, walkTo_cons_of_none hStep,
    walkTo_through h.names ?_ hWalk, List.nil_append]
  intro front hFront
  by_cases hWhole : front = r
  · rw [hWhole]
    exact hDirectory
  · exact (locate_reached h.located).1 front hFront hWhole

theorem Spelled.nul_notMem (h : t.Spelled r) : '\x00' ∉ (pathOf r).chars := by
  intro hNul
  have hContains : (pathOf r).chars.contains '\x00' = true := List.contains_iff_mem.mpr hNul
  have hLocated := h.located
  unfold locate trace at hLocated
  rw [if_neg (by simp [hNul]), if_pos hContains] at hLocated
  cases hLocated

end Roots

/-- What is behind the path of `r` is followed from there. -/
theorem Spelled.locate_behind {t : FileTree} {r : Location} (h : t.Spelled r) (hSome : r ≠ [])
    (hDirectory : t.isDirectoryAt r = true) (follow : Bool) {x : List Char} (hX : Path.GoesOn x)
    (hShort : Text.utf8Length ((pathOf r).chars ++ x) ≤ maxPath) :
    t.locate follow ((pathOf r).behind x) =
      if '\x00' ∈ x then .error .nulInPath else t.walkTo follow maxLinks r (Path.way x) := by
  have hNul : ((pathOf r).chars ++ x).contains '\x00' = true ↔ '\x00' ∈ x := by
    rw [List.contains_iff_mem, List.mem_append, or_iff_right h.nul_notMem]
  unfold FileTree.locate trace
  rw [Path.chars_behind, if_neg (by omega), hX.segments_append, h.walkTo hSome hDirectory]
  simp only [hNul]
  split
  · rfl
  · rw [if_neg]
    simp [FileTree.chars_pathOf]

theorem walkTo_trivial {t : FileTree} {current : Location} (hDirectory : t.isDirectoryAt current = true)
    (follow : Bool) (links : Nat) {pending : List (List Char)}
    (hTrivial : ∀ s ∈ pending, isTrivial s = true) :
    t.walkTo follow links current pending = .ok current := by
  induction pending with
  | nil => exact walkTo_nil t follow links current
  | cons s pending ih =>
    rw [List.forall_mem_cons] at hTrivial
    have hStep : t.stepTo current s = .ok (current, none) := by simp [stepTo, hDirectory, hTrivial.1]
    rw [walkTo_cons_of_none hStep, ih hTrivial.2]

section LookUps

variable {t u : FileTree} {r s : Location} {x : List Char}

/-- What is put behind the paths of `r` and `s` can be looked up and does not lead out of them. -/
structure Fits (r s : Location) (x : List Char) : Prop where
  goesOn : Path.GoesOn x
  inside : ['.', '.'] ∉ Path.way x
  short : Text.utf8Length ((pathOf r).chars ++ x) ≤ maxPath
  short' : Text.utf8Length ((pathOf s).chars ++ x) ≤ maxPath

namespace Relocation

theorem node?_cases (h : Relocation t u r s) (x : Location) :
    t.node? (r ++ x) = u.node? (s ++ x) ∨
      ∃ mode mode', t.node? (r ++ x) = some (.directory mode) ∧
        u.node? (s ++ x) = some (.directory mode') := by
  by_cases hRoot : x = []
  · subst hRoot
    obtain ⟨mode, hMode⟩ := isDirectoryAt_iff.mp h.source
    obtain ⟨mode', hMode'⟩ := isDirectoryAt_iff.mp h.target
    rw [List.append_nil, List.append_nil]
    exact Or.inr ⟨mode, mode', hMode, hMode'⟩
  · exact Or.inl (h.same x hRoot)

theorem isFileAt_eq (h : Relocation t u r s) (x : Location) :
    t.isFileAt (r ++ x) = u.isFileAt (s ++ x) := by
  unfold isFileAt
  rcases h.node?_cases x with hSame | ⟨mode, mode', hNode, hNode'⟩
  · rw [hSame]
  · rw [hNode, hNode']

variable (h : Relocation t u r s) (hR : t.Spelled r) (hS : u.Spelled s) (hX : Fits r s x)
include h hR hS hX

/-- What is looked up behind the path of `r` is found behind that of `s`, at the same place. -/
theorem locate (follow : Bool) : ∃ outcome : Except FileError Location,
    t.locate follow ((pathOf r).behind x) = outcome.map (r ++ ·) ∧
    u.locate follow ((pathOf s).behind x) = outcome.map (s ++ ·) := by
  rw [hR.locate_behind h.source_ne_nil h.source follow hX.goesOn hX.short,
    hS.locate_behind h.target_ne_nil h.target follow hX.goesOn hX.short']
  split
  · exact ⟨.error .nulInPath, rfl, rfl⟩
  · have hStays : t.Stays r (r ++ []) (Path.way x) := h.confined.stays hX.inside
    have hWalk := h.walkTo follow maxLinks hStays
    rwa [List.append_nil, List.append_nil] at hWalk

theorem nodeOf?_cases : t.nodeOf? ((pathOf r).behind x) = u.nodeOf? ((pathOf s).behind x) ∨
    ∃ mode mode', t.nodeOf? ((pathOf r).behind x) = some (.directory mode) ∧
      u.nodeOf? ((pathOf s).behind x) = some (.directory mode') := by
  obtain ⟨outcome, hT, hU⟩ := h.locate hR hS hX true
  unfold nodeOf?
  rw [hT, hU]
  cases outcome with
  | error e => exact Or.inl rfl
  | ok y => exact h.node?_cases y

theorem isFile_eq : t.isFile ((pathOf r).behind x) = u.isFile ((pathOf s).behind x) := by
  unfold isFile
  rcases h.nodeOf?_cases hR hS hX with hSame | ⟨mode, mode', hNode, hNode'⟩
  · rw [hSame]
  · rw [hNode, hNode']

theorem isDirectory_eq : t.isDirectory ((pathOf r).behind x) = u.isDirectory ((pathOf s).behind x) := by
  unfold isDirectory
  rcases h.nodeOf?_cases hR hS hX with hSame | ⟨mode, mode', hNode, hNode'⟩
  · rw [hSame]
  · rw [hNode, hNode']

theorem isPresent_eq : t.isPresent ((pathOf r).behind x) = u.isPresent ((pathOf s).behind x) := by
  unfold isPresent
  rcases h.nodeOf?_cases hR hS hX with hSame | ⟨mode, mode', hNode, hNode'⟩
  · rw [hSame]
  · rw [hNode, hNode']
    rfl

end Relocation

/-- Only what names something leads away from `r`. -/
theorem Spelled.eq_of_trivial (h : t.Spelled r) (hSome : r ≠ []) (hDirectory : t.isDirectoryAt r = true)
    {follow : Bool} (hX : Fits r s x) (hTrivial : Path.moving x = []) {loc : Location}
    (hLoc : t.locate follow ((pathOf r).behind x) = .ok loc) : loc = r := by
  have hWay : ∀ s ∈ Path.way x, isTrivial s = true := by
    rw [hX.goesOn.moving_eq] at hTrivial
    simpa using hTrivial
  rw [h.locate_behind hSome hDirectory follow hX.goesOn hX.short,
    walkTo_trivial hDirectory follow maxLinks hWay] at hLoc
  split at hLoc
  · cases hLoc
  · exact (Except.ok.inj hLoc).symm

end LookUps
end FileTree
end ExplicitModules
