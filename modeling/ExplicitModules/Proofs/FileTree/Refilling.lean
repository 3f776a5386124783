import ExplicitModules.Proofs.FileTree.Following

/-!
# Trees that differ by saved files

Saving a file replaces its content, or puts a file in the place of a link to it. A path that led
somewhere before still leads there, or to the file that took the place of the link; what a path
leads to becomes different only if it was out of reach for its number of links.
-/
namespace ExplicitModules.FileTree
set_option autoImplicit false
open ExplicitModules.Path (segments)

def isFileAt (t : FileTree) (loc : Location) : Bool :=
  match t.node? loc with
  | some (.file _ _) => true
  | _ => false

theorem isFileAt_iff {t : FileTree} {loc : Location} :
    t.isFileAt loc = true ↔ ∃ content mode, t.node? loc = some (.file content mode) := by
  unfold isFileAt
  constructor
  · intro h
    split at h
    · rename_i content mode hNode
      exact ⟨content, mode, hNode⟩
    · cases h
  · rintro ⟨content, mode, hNode⟩
    rw [hNode]

theorem isDirectoryAt_of_isFileAt {t : FileTree} {loc : Location} (h : t.isFileAt loc = true) :
    t.isDirectoryAt loc = false := by
  obtain ⟨content, mode, hNode⟩ := isFileAt_iff.mp h
  simp [isDirectoryAt, hNode]

theorem not_isLinkAt_of_isFileAt {t : FileTree} {loc : Location} (h : t.isFileAt loc = true) :
    ¬t.IsLinkAt loc := by
  obtain ⟨content, mode, hNode⟩ := isFileAt_iff.mp h
  rintro ⟨target, hTarget⟩
  rw [hNode] at hTarget
  cases hTarget

theorem isFile_iff {t : FileTree} {p : Path} :
    t.isFile p = true ↔ ∃ loc, t.locate true p = .ok loc ∧ t.isFileAt loc = true := by
  unfold isFile nodeOf?
  cases t.locate true p with
  | error e => simp
  | ok loc =>
    simp only [Except.ok.injEq, exists_eq_left']
    rfl

theorem locate_ne_error_of_isFile {t : FileTree} {p : Path} {e : FileError}
    (h : t.isFile p = true) : t.locate true p ≠ .error e := by
  obtain ⟨loc, hLoc, -⟩ := isFile_iff.mp h
  rw [hLoc]
  exact nofun

/-- What may stand at `loc` after files of `t` have been saved. -/
inductive Refills (t : FileTree) (loc : Location) : Option Node → Prop
  | same : Refills t loc (t.node? loc)
  | file {content content' : ByteArray} {mode : Nat}
      (hNode : t.node? loc = some (.file content mode)) :
      Refills t loc (some (.file content' mode))
  | link {target : Location} {content content' : ByteArray} {mode : Nat}
      (hLink : t.LeadsTo loc target) (hNode : t.node? target = some (.file content mode)) :
      Refills t loc (some (.file content' mode))

/-- `u` is `t` after some files have been saved. -/
def Refilled (t u : FileTree) : Prop :=
  ∀ loc, t.Refills loc (u.node? loc)

/-- `u` is `t` with other content in some files. -/
def SameShape (t u : FileTree) : Prop :=
  ∀ loc, u.node? loc = t.node? loc ∨ ∃ content content' mode,
    t.node? loc = some (.file content mode) ∧ u.node? loc = some (.file content' mode)

theorem Refilled.refl (t : FileTree) : t.Refilled t :=
  fun _ => .same

theorem Refilled.sameShape {t u : FileTree} (h : t.Refilled u)
    (hLinks : ∀ loc target, t.node? loc = some (.link target) →
      u.node? loc = some (.link target)) : t.SameShape u := by
  intro loc
  have hLoc := h loc
  generalize hNode : u.node? loc = node at hLoc
  cases hLoc with
  | same => exact Or.inl rfl
  | file hFile => exact Or.inr ⟨_, _, _, hFile, rfl⟩
  | link hLink _ =>
    obtain ⟨target, links, hTarget, -⟩ := hLink
    rw [hLinks loc target hTarget] at hNode
    cases hNode

section Shape

variable {t u : FileTree} (h : t.SameShape u)
include h

theorem SameShape.isDirectoryAt_eq (loc : Location) :
    u.isDirectoryAt loc = t.isDirectoryAt loc := by
  unfold isDirectoryAt
  rcases h loc with hSame | ⟨_, _, _, hT, hU⟩
  · rw [hSame]
  · rw [hT, hU]

theorem SameShape.isFileAt_eq (loc : Location) : u.isFileAt loc = t.isFileAt loc := by
  unfold isFileAt
  rcases h loc with hSame | ⟨_, _, _, hT, hU⟩
  · rw [hSame]
  · rw [hT, hU]

theorem SameShape.stepTo_eq (current : Location) (segment : List Char) :
    u.stepTo current segment = t.stepTo current segment := by
  unfold stepTo
  rw [h.isDirectoryAt_eq current]
  dsimp only
  rcases h (current ++ [String.ofList segment]) with hSame | ⟨_, _, _, hT, hU⟩
  · rw [hSame]
  · rw [hT, hU]

theorem SameShape.walkTo_eq (follow : Bool) (links : Nat) (current : Location)
    (pending : List (List Char)) :
    u.walkTo follow links current pending = t.walkTo follow links current pending := by
  have hWith : ∀ behindLink current pending,
      u.walkWith follow behindLink current pending = t.walkWith follow behindLink current pending := by
    intro behindLink current pending
    induction pending generalizing current with
    | nil => rfl
    | cons segment rest ih => simp only [walkWith, h.stepTo_eq, ih]
  induction links generalizing current pending with
  | zero => exact hWith _ current pending
  | succ links ih =>
    have hBehind : u.walkTo follow links = t.walkTo follow links := by
      funext start rest
      exact ih start rest
    rw [walkTo, walkTo, hBehind]
    exact hWith _ current pending

theorem SameShape.trace_eq (follow : Bool) (p : Path) : u.trace follow p = t.trace follow p := by
  simp only [trace, h.walkTo_eq]

theorem SameShape.overruns_eq (links : Nat) (current : Location) (pending : List (List Char)) :
    u.overruns links current pending = t.overruns links current pending := by
  have hWith : ∀ behindLink current pending,
      u.overrunsWith behindLink current pending = t.overrunsWith behindLink current pending := by
    intro behindLink current pending
    induction pending generalizing current with
    | nil => rfl
    | cons segment rest ih => simp only [overrunsWith, isOverlong, h.stepTo_eq, ih]
  induction links generalizing current pending with
  | zero => exact hWith _ current pending
  | succ links ih =>
    have hBehind : u.overruns links = t.overruns links := by
      funext start rest
      exact ih start rest
    rw [overruns, overruns, hBehind]
    exact hWith _ current pending

theorem SameShape.resolved_eq (p : Path) : u.resolved p = t.resolved p := by
  simp only [resolved, h.overruns_eq, h.trace_eq]

theorem SameShape.locate_eq (follow : Bool) (p : Path) : u.locate follow p = t.locate follow p := by
  simp only [locate, h.trace_eq]

theorem SameShape.isFile_eq (p : Path) : u.isFile p = t.isFile p := by
  apply Bool.eq_iff_iff.mpr
  rw [isFile_iff, isFile_iff]
  simp only [h.locate_eq, h.isFileAt_eq]

end Shape

/-- A link is left alone only where it is the last and last links are not followed. -/
theorem last_of_not_on {follow : Bool} {rest : List (List Char)}
    (h : ¬(follow = true ∨ rest ≠ [])) : follow = false ∧ rest = [] := by
  cases follow <;> simp at h
  exact ⟨rfl, h⟩

section Refilled

variable {t u : FileTree} (h : t.Refilled u)
include h

theorem Refilled.isDirectoryAt_eq (loc : Location) : u.isDirectoryAt loc = t.isDirectoryAt loc := by
  have hLoc := h loc
  unfold isDirectoryAt
  generalize u.node? loc = node at hLoc
  cases hLoc with
  | same => rfl
  | file hNode => rw [hNode]
  | link hLink _ =>
    obtain ⟨target, links, hNode, -⟩ := hLink
    rw [hNode]

/-- One step is the same in both trees, unless it comes to a link that has become a file. -/
theorem Refilled.stepTo (current : Location) (segment : List Char) :
    u.stepTo current segment = t.stepTo current segment ∨
      ∃ next held target, t.stepTo current segment = .ok (next, some held) ∧
        u.stepTo current segment = .ok (next, none) ∧ t.LeadsTo next target ∧
        t.isFileAt target = true ∧ u.isFileAt next = true := by
  unfold FileTree.stepTo
  rw [h.isDirectoryAt_eq current]
  dsimp only
  have hNext := h (current ++ [String.ofList segment])
  generalize hNode : u.node? (current ++ [String.ofList segment]) = node at hNext
  cases hNext with
  | same => exact Or.inl rfl
  | file hFile =>
    rw [hFile]
    exact Or.inl rfl
  | link hLink hTarget =>
    obtain ⟨held, links, hHeld, hWalk⟩ := hLink
    rw [hHeld]
    split
    · split
      · exact Or.inl rfl
      · split
        · exact Or.inl rfl
        · split
          · exact Or.inl rfl
          · exact Or.inr ⟨_, held, _, rfl, rfl, ⟨held, links, hHeld, hWalk⟩,
              isFileAt_iff.mpr ⟨_, _, hTarget⟩, isFileAt_iff.mpr ⟨_, _, hNode⟩⟩
    · exact Or.inl rfl

/-- A walk that `t` does not refuse for its links ends in `u` as it does in `t`, or at the file that
took the place of the last link. -/
theorem Refilled.walkTo {follow : Bool} {links : Nat} {current : Location}
    {pending : List (List Char)}
    (hLinks : t.walkTo follow links current pending ≠ .error .tooManyLinks) :
    u.walkTo follow links current pending = t.walkTo follow links current pending ∨
      follow = true ∧ ∃ entry loc, t.walkTo follow links current pending = .ok loc ∧
        u.walkTo follow links current pending = .ok entry ∧ t.LeadsTo entry loc ∧
        t.isFileAt loc = true ∧ u.isFileAt entry = true := by
  induction links, current, pending using walk_induction with
  | nil links current => exact Or.inl (by simp)
  | cons links current segment rest ihRest ihLink =>
    rcases h.stepTo current segment with hSame | ⟨next, held, target, hT, hU, hLeads, hFile, hIsFile⟩
    · cases hStep : t.stepTo current segment with
      | error e =>
        rw [walkTo_cons_of_error hStep, walkTo_cons_of_error (hSame.trans hStep)]
        exact Or.inl rfl
      | ok found =>
        obtain ⟨next, link⟩ := found
        cases link with
        | none =>
          rw [walkTo_cons_of_none hStep] at hLinks ⊢
          rw [walkTo_cons_of_none (hSame.trans hStep)]
          exact ihRest next hLinks
        | some held =>
          by_cases hOn : follow = true ∨ rest ≠ []
          · cases links with
            | zero => exact absurd (walkTo_cons_zero hStep hOn) hLinks
            | succ links =>
              rw [walkTo_cons_succ hStep hOn] at hLinks ⊢
              rw [walkTo_cons_succ (hSame.trans hStep) hOn]
              exact ihLink links (Nat.lt_succ_self links) _ _ hLinks
          · obtain ⟨rfl, rfl⟩ := last_of_not_on hOn
            rw [walkTo_last hStep, walkTo_last (hSame.trans hStep)]
            exact Or.inl rfl
    · -- the link in `t` leads to a file, so the walk ends here or fails behind that file
      rw [walkTo_cons_of_none hU]
      by_cases hOn : follow = true ∨ rest ≠ []
      · cases links with
        | zero => exact absurd (walkTo_cons_zero hT hOn) hLinks
        | succ links =>
          obtain ⟨hParent, hNode⟩ := stepTo_eq_link hT
          rw [walkTo_cons_succ hT hOn] at hLinks ⊢
          obtain ⟨held', enough, hHeld, hWalk⟩ := hLeads
          rw [hNode] at hHeld
          cases hHeld
          rw [hParent] at hWalk
          rcases walkTo_append hWalk links rest hOn with ⟨-, hTooMany⟩ | ⟨left, hEnd⟩
          · exact absurd hTooMany hLinks
          · cases rest with
            | nil =>
              rw [walkTo_nil] at hEnd
              obtain hFollow | hNe := hOn
              · exact Or.inr ⟨hFollow, next, target, hEnd, walkTo_nil u follow _ next,
                  ⟨held, enough, hNode, hParent ▸ hWalk⟩, hFile, hIsFile⟩
              · exact absurd rfl hNe
            | cons segment' rest' =>
              rw [hEnd, walkTo_cons_of_error (stepTo_of_not_directory
                  (isDirectoryAt_of_isFileAt hFile)),
                walkTo_cons_of_error (stepTo_of_not_directory (isDirectoryAt_of_isFileAt hIsFile))]
              exact Or.inl rfl
      · obtain ⟨rfl, rfl⟩ := last_of_not_on hOn
        rw [walkTo_last hT, walkTo_nil]
        exact Or.inl rfl

theorem Refilled.locate {follow : Bool} {p : Path}
    (hLinks : t.locate follow p ≠ .error .tooManyLinks) :
    u.locate follow p = t.locate follow p ∨
      follow = true ∧ ∃ entry loc, t.locate follow p = .ok loc ∧ u.locate follow p = .ok entry ∧
        t.LeadsTo entry loc ∧ t.isFileAt loc = true ∧ u.isFileAt entry = true := by
  unfold FileTree.locate trace at hLinks ⊢
  split
  · exact Or.inl rfl
  · split
    · exact Or.inl rfl
    · split
      · exact Or.inl rfl
      · rename_i hLength hNul hEmpty
        rw [if_neg hLength, if_neg hNul, if_neg hEmpty] at hLinks
        exact h.walkTo hLinks

theorem Refilled.isFileAt_of {loc : Location} (hFile : t.isFileAt loc = true) :
    u.isFileAt loc = true := by
  obtain ⟨content, mode, hNode⟩ := isFileAt_iff.mp hFile
  have hLoc := h loc
  generalize hU : u.node? loc = node at hLoc
  cases hLoc with
  | same => exact isFileAt_iff.mpr ⟨content, mode, hU.trans hNode⟩
  | file _ => exact isFileAt_iff.mpr ⟨_, _, hU⟩
  | link _ _ => exact isFileAt_iff.mpr ⟨_, _, hU⟩

theorem Refilled.isFileAt_of_not_link {loc : Location} (hLink : ¬t.IsLinkAt loc)
    (hFile : u.isFileAt loc = true) : t.isFileAt loc = true := by
  have hLoc := h loc
  generalize hU : u.node? loc = node at hLoc
  cases hLoc with
  | same =>
    obtain ⟨content, mode, hNode⟩ := isFileAt_iff.mp hFile
    exact isFileAt_iff.mpr ⟨content, mode, hU.symm.trans hNode⟩
  | file hNode => exact isFileAt_iff.mpr ⟨_, _, hNode⟩
  | link hLeads _ => exact absurd hLeads.isLinkAt hLink

/-- A path that `t` does not refuse for its links leads to a file of `u` if it led to one of `t`. -/
theorem Refilled.isFile_eq {p : Path} (hLinks : t.locate true p ≠ .error .tooManyLinks) :
    u.isFile p = t.isFile p := by
  apply Bool.eq_iff_iff.mpr
  rw [isFile_iff, isFile_iff]
  rcases h.locate hLinks with hSame | ⟨-, entry, loc, hT, hU, hLeads, hFile, hIsFile⟩
  · rw [hSame]
    constructor
    · rintro ⟨loc, hLoc, hFile⟩
      exact ⟨loc, hLoc, h.isFileAt_of_not_link (locate_reached hLoc).2 hFile⟩
    · rintro ⟨loc, hLoc, hFile⟩
      exact ⟨loc, hLoc, h.isFileAt_of hFile⟩
  · constructor
    · intro _
      exact ⟨loc, hT, hFile⟩
    · intro _
      exact ⟨entry, hU, hIsFile⟩

end Refilled
end ExplicitModules.FileTree
