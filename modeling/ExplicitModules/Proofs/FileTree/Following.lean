import ExplicitModules.FileTree.Content

/-!
# Following paths

What a walk along a path finds depends on the number of links it may meet only in that too small a
number is refused. A walk over a path with something behind it goes on from where the walk over the
path ends.
-/
namespace ExplicitModules.FileTree
set_option autoImplicit false
open ExplicitModules.Path (segments)

section Steps

variable {t : FileTree} {follow : Bool} {links : Nat} {current next : Location}
  {segment : List Char} {rest : List (List Char)} {target : String}

@[simp] theorem walkTo_nil (t : FileTree) (follow : Bool) (links : Nat) (current : Location) :
    t.walkTo follow links current [] = .ok current := by
  cases links <;> rfl

theorem walkTo_cons_of_error {e : FileError} (hStep : t.stepTo current segment = .error e) :
    t.walkTo follow links current (segment :: rest) = .error e := by
  cases links <;> simp only [walkTo, walkWith, hStep]

theorem walkTo_cons_of_none (hStep : t.stepTo current segment = .ok (next, none)) :
    t.walkTo follow links current (segment :: rest) = t.walkTo follow links next rest := by
  cases links <;> simp only [walkTo, walkWith, hStep]

theorem walkTo_cons_zero (hStep : t.stepTo current segment = .ok (next, some target))
    (hOn : follow = true ∨ rest ≠ []) :
    t.walkTo follow 0 current (segment :: rest) = .error .tooManyLinks := by
  have hNot : ¬(rest = [] ∧ follow = false) := by
    rintro ⟨hRest, hFollow⟩
    rcases hOn with hTrue | hNe
    · rw [hFollow] at hTrue
      cases hTrue
    · exact hNe hRest
  simp only [walkTo, walkWith, hStep, if_neg hNot]

theorem walkTo_cons_succ (hStep : t.stepTo current segment = .ok (next, some target))
    (hOn : follow = true ∨ rest ≠ []) :
    t.walkTo follow (links + 1) current (segment :: rest) =
      t.walkTo follow links (linkStart current target) (segments target.toList ++ rest) := by
  have hNot : ¬(rest = [] ∧ follow = false) := by
    rintro ⟨hRest, hFollow⟩
    rcases hOn with hTrue | hNe
    · rw [hFollow] at hTrue
      cases hTrue
    · exact hNe hRest
  simp only [walkTo, walkWith, hStep, if_neg hNot]

theorem walkTo_last (hStep : t.stepTo current segment = .ok (next, some target)) :
    t.walkTo false links current [segment] = .ok next := by
  cases links <;> simp [walkTo, walkWith, hStep]

/-- A step stays, leads up, or leads to an entry, which may be a link. -/
theorem stepTo_cases {link : Option String} (hStep : t.stepTo current segment = .ok (next, link)) :
    t.isDirectoryAt current = true ∧
      (Path.isTrivial segment = true ∧ next = current ∧ link = none ∨
        Path.isTrivial segment = false ∧ segment = ['.', '.'] ∧ next = current.dropLast ∧ link = none ∨
        Path.isTrivial segment = false ∧ segment ≠ ['.', '.'] ∧
          next = current ++ [String.ofList segment] ∧
          ∃ node, t.node? next = some node ∧ ∀ target, link = some target ↔ node = .link target) := by
  unfold stepTo at hStep
  split at hStep
  · rename_i hDirectory
    refine ⟨hDirectory, ?_⟩
    split at hStep
    · cases hStep
      exact Or.inl ⟨‹_›, rfl, rfl⟩
    · rename_i hTrivial
      refine Or.inr ?_
      split at hStep
      · cases hStep
        exact Or.inl ⟨Bool.eq_false_iff.mpr hTrivial, ‹_›, rfl, rfl⟩
      · rename_i hUp
        refine Or.inr ⟨Bool.eq_false_iff.mpr hTrivial, hUp, ?_⟩
        split at hStep
        · cases hStep
        · dsimp only at hStep
          split at hStep
          · cases hStep
          · rename_i hNode
            cases hStep
            exact ⟨rfl, _, hNode, fun target => by simp⟩
          · rename_i node hLink hNode
            cases hStep
            refine ⟨rfl, node, hNode, fun target => iff_of_false nofun ?_⟩
            rintro rfl
            exact hLink target rfl
  · cases hStep

theorem stepTo_eq_link (hStep : t.stepTo current segment = .ok (next, some target)) :
    next.dropLast = current ∧ t.node? next = some (.link target) := by
  rcases (stepTo_cases hStep).2 with ⟨-, -, hNone⟩ | ⟨-, -, -, hNone⟩ | ⟨-, -, rfl, node, hNode, hLink⟩
  · cases hNone
  · cases hNone
  · rw [(hLink target).mp rfl] at hNode
    exact ⟨List.dropLast_concat, hNode⟩

/-- A walk that arrives goes on behind its first segment, or behind what a link there holds. -/
theorem walkTo_cons_eq_ok {loc : Location}
    (h : t.walkTo true links current (segment :: rest) = .ok loc) :
    (∃ next, t.stepTo current segment = .ok (next, none) ∧ t.walkTo true links next rest = .ok loc) ∨
      ∃ next target fewer, links = fewer + 1 ∧ t.stepTo current segment = .ok (next, some target) ∧
        t.walkTo true fewer (linkStart current target) (segments target.toList ++ rest) = .ok loc := by
  cases hStep : t.stepTo current segment with
  | error e =>
    rw [walkTo_cons_of_error hStep] at h
    cases h
  | ok found =>
    obtain ⟨next, link⟩ := found
    cases link with
    | none =>
      rw [walkTo_cons_of_none hStep] at h
      exact Or.inl ⟨next, rfl, h⟩
    | some target =>
      cases links with
      | zero =>
        rw [walkTo_cons_zero hStep (Or.inl rfl)] at h
        cases h
      | succ fewer =>
        rw [walkTo_cons_succ hStep (Or.inl rfl)] at h
        exact Or.inr ⟨next, target, fewer, rfl, rfl, h⟩

theorem stepTo_of_not_directory (hDirectory : t.isDirectoryAt current = false) :
    t.stepTo current segment = .error .notDirectory := by
  simp [stepTo, hDirectory]

end Steps

/-- Everything above `loc` is a directory, as it is for every place that a path leads to. -/
def Reached (t : FileTree) (loc : Location) : Prop :=
  ∀ front, front <+: loc → front ≠ loc → t.isDirectoryAt front = true

def IsLinkAt (t : FileTree) (loc : Location) : Prop :=
  ∃ target, t.node? loc = some (.link target)

theorem reached_nil (t : FileTree) : t.Reached [] := by
  intro front hFront hNe
  exact absurd (List.prefix_nil.mp hFront) hNe

theorem isDirectoryAt_iff {t : FileTree} {loc : Location} :
    t.isDirectoryAt loc = true ↔ ∃ mode, t.node? loc = some (.directory mode) := by
  unfold isDirectoryAt
  constructor
  · intro h
    split at h
    · rename_i mode hNode
      exact ⟨mode, hNode⟩
    · cases h
  · rintro ⟨mode, hNode⟩
    rw [hNode]

theorem not_isLinkAt_of_isDirectoryAt {t : FileTree} {loc : Location}
    (h : t.isDirectoryAt loc = true) : ¬t.IsLinkAt loc := by
  rintro ⟨target, hNode⟩
  simp [isDirectoryAt, hNode] at h

theorem Reached.dropLast {t : FileTree} {loc : Location} (h : t.Reached loc)
    (hLoc : t.isDirectoryAt loc = true) :
    t.Reached loc.dropLast ∧ t.isDirectoryAt loc.dropLast = true := by
  have hPrefix := List.dropLast_prefix loc
  refine ⟨?_, ?_⟩
  · intro front hFront hNe
    apply h front (hFront.trans hPrefix)
    rintro rfl
    exact hNe (hFront.eq_of_length_le (List.length_dropLast ▸ Nat.sub_le _ _))
  · by_cases hEq : loc.dropLast = loc
    · rw [hEq]
      exact hLoc
    · exact h loc.dropLast hPrefix hEq

theorem Reached.concat {t : FileTree} {loc : Location} (h : t.Reached loc)
    (hLoc : t.isDirectoryAt loc = true) (name : String) : t.Reached (loc ++ [name]) := by
  intro front hFront hNe
  rcases List.prefix_concat_iff.mp hFront with hEq | hPrefix
  · exact absurd hEq hNe
  · by_cases hEq : front = loc
    · rw [hEq]
      exact hLoc
    · exact h front hPrefix hEq

theorem stepTo_reached {t : FileTree} {current next : Location} {segment : List Char}
    {link : Option String} (h : t.Reached current)
    (hStep : t.stepTo current segment = .ok (next, link)) :
    t.isDirectoryAt current = true ∧ t.Reached next ∧ (link = none → ¬t.IsLinkAt next) := by
  obtain ⟨hDirectory, ⟨-, rfl, -⟩ | ⟨-, -, rfl, -⟩ | ⟨-, -, rfl, node, hNode, hLink⟩⟩ :=
    stepTo_cases hStep
  · exact ⟨hDirectory, h, fun _ => not_isLinkAt_of_isDirectoryAt hDirectory⟩
  · obtain ⟨hReached, hParent⟩ := h.dropLast hDirectory
    exact ⟨hDirectory, hReached, fun _ => not_isLinkAt_of_isDirectoryAt hParent⟩
  · refine ⟨hDirectory, h.concat hDirectory _, fun hNone => ?_⟩
    rintro ⟨target, hTarget⟩
    rw [hNode] at hTarget
    cases hNone.symm.trans ((hLink target).mpr (Option.some.inj hTarget))

/-- Induction along a walk: the rest of the path is walked with the same number of links to go, and
what a link holds with fewer. -/
theorem walk_induction {motive : Nat → Location → List (List Char) → Prop}
    (nil : ∀ links current, motive links current [])
    (cons : ∀ links current segment rest, (∀ next, motive links next rest) →
      (∀ fewer, fewer < links → ∀ start pending, motive fewer start pending) →
      motive links current (segment :: rest))
    (links : Nat) (current : Location) (pending : List (List Char)) :
    motive links current pending := by
  induction links using Nat.strongRecOn generalizing current pending with
  | ind links ih =>
    induction pending generalizing current with
    | nil => exact nil links current
    | cons segment rest ihRest =>
      apply cons links current segment rest ihRest
      intro fewer hFewer start pending
      exact ih fewer hFewer start pending

/-- A walk that has led to `loc` once leads there again, whatever is left to walk behind it, or is
refused for its links if it may meet fewer. -/
theorem walkTo_append {t : FileTree} {follow : Bool} {enough : Nat} {current loc : Location}
    {front : List (List Char)} (hFront : t.walkTo true enough current front = .ok loc)
    (links : Nat) (back : List (List Char)) (hOn : follow = true ∨ back ≠ []) :
    links < enough ∧
        t.walkTo follow links current (front ++ back) = .error .tooManyLinks ∨
      ∃ left, t.walkTo follow links current (front ++ back) = t.walkTo follow left loc back := by
  induction enough, current, front using walk_induction generalizing links with
  | nil enough current =>
    rw [walkTo_nil] at hFront
    obtain rfl := Except.ok.inj hFront
    exact Or.inr ⟨links, rfl⟩
  | cons enough current segment rest ihRest ihLink =>
    have hOn' : follow = true ∨ rest ++ back ≠ [] := by
      rcases hOn with hTrue | hNe
      · exact Or.inl hTrue
      · exact Or.inr (by simp [hNe])
    rw [List.cons_append]
    cases hStep : t.stepTo current segment with
    | error e =>
      rw [walkTo_cons_of_error hStep] at hFront
      cases hFront
    | ok found =>
      obtain ⟨next, link⟩ := found
      cases link with
      | none =>
        rw [walkTo_cons_of_none hStep] at hFront ⊢
        exact ihRest next hFront links
      | some target =>
        cases enough with
        | zero =>
          rw [walkTo_cons_zero hStep (Or.inl rfl)] at hFront
          cases hFront
        | succ enough =>
          rw [walkTo_cons_succ hStep (Or.inl rfl)] at hFront
          cases links with
          | zero =>
            -- this link is one too many for the second walk
            rw [walkTo_cons_zero hStep hOn']
            exact Or.inl ⟨Nat.succ_pos enough, rfl⟩
          | succ links =>
            rw [walkTo_cons_succ hStep hOn', ← List.append_assoc, Nat.succ_lt_succ_iff]
            exact ihLink enough (Nat.lt_succ_self enough) _ _ hFront links

/-- Two walks over the same path that both arrive, arrive at the same place. -/
theorem walkTo_unique {t : FileTree} {links links' : Nat} {current loc loc' : Location}
    {pending : List (List Char)} (h : t.walkTo true links current pending = .ok loc)
    (h' : t.walkTo true links' current pending = .ok loc') : loc = loc' := by
  have hAgain := walkTo_append h links' [] (Or.inl (Eq.refl true))
  rw [List.append_nil, h'] at hAgain
  rcases hAgain with ⟨-, hTooMany⟩ | ⟨left, hSame⟩
  · cases hTooMany
  · rw [walkTo_nil] at hSame
    exact (Except.ok.inj hSame).symm

theorem Reached.linkStart {t : FileTree} {current : Location} (h : t.Reached current)
    (target : String) : t.Reached (linkStart current target) := by
  unfold FileTree.linkStart
  split
  · exact reached_nil t
  · exact h

theorem not_isLinkAt_linkStart {t : FileTree} {current : Location} (h : ¬t.IsLinkAt current)
    (target : String) : ¬t.IsLinkAt (linkStart current target) := by
  unfold linkStart
  split
  · exact not_isLinkAt_of_isDirectoryAt rfl
  · exact h

theorem walkTo_reached {t : FileTree} {links : Nat} {current loc : Location}
    {pending : List (List Char)} (hReached : t.Reached current) (hLink : ¬t.IsLinkAt current)
    (h : t.walkTo true links current pending = .ok loc) : t.Reached loc ∧ ¬t.IsLinkAt loc := by
  induction links, current, pending using walk_induction with
  | nil links current =>
    rw [walkTo_nil] at h
    obtain rfl := Except.ok.inj h
    exact ⟨hReached, hLink⟩
  | cons links current segment rest ihRest ihLink =>
    rcases walkTo_cons_eq_ok h with ⟨next, hStep, h⟩ | ⟨next, target, links, rfl, hStep, h⟩
    · obtain ⟨-, hNext, hNotLink⟩ := stepTo_reached hReached hStep
      exact ihRest next hNext (hNotLink rfl) h
    · exact ihLink links (Nat.lt_succ_self links) _ _ (hReached.linkStart target)
        (not_isLinkAt_linkStart hLink target) h

theorem walkTo_of_trace {t : FileTree} {follow : Bool} {p : Path} {loc : Location}
    (h : t.trace follow p = .ok loc) :
    t.walkTo follow maxLinks [] (segments p.chars) = .ok loc := by
  unfold trace at h
  split at h
  · cases h
  · split at h
    · cases h
    · exact h

theorem trace_of_locate {t : FileTree} {follow : Bool} {p : Path} {loc : Location}
    (h : t.locate follow p = .ok loc) : t.trace follow p = .ok loc := by
  unfold locate at h
  split at h
  · cases h
  · exact h

theorem locate_eq_ok {t : FileTree} {follow : Bool} {p : Path} {loc : Location}
    (h : t.locate follow p = .ok loc) :
    t.walkTo follow maxLinks [] (segments p.chars) = .ok loc :=
  walkTo_of_trace (trace_of_locate h)

/-- A canonical path is found where the path itself leads, or not at all for the length of a path on
the way. -/
theorem resolved_cases (t : FileTree) (p : Path) :
    t.resolved p = t.trace true p ∨ t.resolved p = .error .nameTooLong := by
  unfold resolved
  split
  · exact Or.inr rfl
  · exact Or.inl rfl

theorem trace_of_resolved {t : FileTree} {p : Path} {loc : Location} (h : t.resolved p = .ok loc) :
    t.trace true p = .ok loc := by
  rcases t.resolved_cases p with hSame | hLong
  · exact hSame.symm.trans h
  · cases hLong.symm.trans h

/-- Whether a path can be looked up at all is a matter of its text. -/
theorem text_of_locate {t : FileTree} {follow : Bool} {p : Path} {loc : Location}
    (h : t.locate follow p = .ok loc) :
    ¬(maxPath < Text.utf8Length p.chars ∧ (!p.chars.contains '\x00') = true) ∧
      ¬p.chars.contains '\x00' = true ∧ p.chars ≠ [] := by
  unfold locate trace at h
  split at h
  · cases h
  · rename_i hLength
    split at h
    · cases h
    · rename_i hNul
      split at h
      · cases h
      · rename_i hEmpty
        exact ⟨hLength, hNul, hEmpty⟩

/-- A path that some look-up follows is followed by every other. -/
theorem locate_eq_walkTo {t : FileTree} {follow : Bool} {p : Path} {loc : Location}
    (h : t.locate follow p = .ok loc) (u : FileTree) (follow' : Bool) :
    u.locate follow' p = u.walkTo follow' maxLinks [] (segments p.chars) := by
  obtain ⟨hLength, hNul, hEmpty⟩ := text_of_locate h
  rw [locate, if_neg hLength, trace, if_neg hNul, if_neg hEmpty]

theorem isPresent_of_locate {t : FileTree} {p : Path} {loc : Location} {node : Node}
    (h : t.locate true p = .ok loc) (hNode : t.node? loc = some node) : t.isPresent p = true := by
  rw [isPresent, nodeOf?, h]
  dsimp only
  rw [hNode]
  rfl

theorem locate_reached {t : FileTree} {p : Path} {loc : Location}
    (h : t.locate true p = .ok loc) : t.Reached loc ∧ ¬t.IsLinkAt loc :=
  walkTo_reached (reached_nil t) (not_isLinkAt_of_isDirectoryAt rfl) (locate_eq_ok h)

/-- A link at `entry` that, when it is followed, leads to `loc`. -/
def LeadsTo (t : FileTree) (entry loc : Location) : Prop :=
  ∃ target links, t.node? entry = some (.link target) ∧
    t.walkTo true links (linkStart entry.dropLast target) (segments target.toList) = .ok loc

theorem LeadsTo.unique {t : FileTree} {entry loc loc' : Location} (h : t.LeadsTo entry loc)
    (h' : t.LeadsTo entry loc') : loc = loc' := by
  obtain ⟨target, links, hNode, hWalk⟩ := h
  obtain ⟨target', links', hNode', hWalk'⟩ := h'
  rw [hNode] at hNode'
  cases hNode'
  exact walkTo_unique hWalk hWalk'

/-- Without its last link a walk ends at an entry from which that link leads on. -/
theorem walkTo_false_of_true {t : FileTree} {links : Nat} {current loc : Location}
    {pending : List (List Char)} (h : t.walkTo true links current pending = .ok loc) :
    ∃ entry, t.walkTo false links current pending = .ok entry ∧
      (entry = loc ∨ t.LeadsTo entry loc) := by
  induction links, current, pending using walk_induction with
  | nil links current =>
    rw [walkTo_nil] at h
    exact ⟨current, walkTo_nil t false links current, Or.inl (Except.ok.inj h)⟩
  | cons links current segment rest ihRest ihLink =>
    rcases walkTo_cons_eq_ok h with ⟨next, hStep, h⟩ | ⟨next, target, links, rfl, hStep, h⟩
    · rw [walkTo_cons_of_none hStep]
      exact ihRest next h
    · by_cases hRest : rest = []
      · subst hRest
        obtain ⟨hParent, hNode⟩ := stepTo_eq_link hStep
        rw [List.append_nil] at h
        exact ⟨next, walkTo_last hStep, Or.inr ⟨target, links, hNode, hParent ▸ h⟩⟩
      · rw [walkTo_cons_succ hStep (Or.inr hRest)]
        exact ihLink links (Nat.lt_succ_self links) _ _ h

theorem locate_false_of_true {t : FileTree} {p : Path} {loc : Location}
    (h : t.locate true p = .ok loc) :
    ∃ entry, t.locate false p = .ok entry ∧ (entry = loc ∨ t.LeadsTo entry loc) := by
  rw [locate_eq_walkTo h t false]
  exact walkTo_false_of_true (locate_eq_ok h)

theorem LeadsTo.isLinkAt {t : FileTree} {entry loc : Location} (h : t.LeadsTo entry loc) :
    t.IsLinkAt entry := by
  obtain ⟨target, _, hNode, _⟩ := h
  exact ⟨target, hNode⟩

end ExplicitModules.FileTree
