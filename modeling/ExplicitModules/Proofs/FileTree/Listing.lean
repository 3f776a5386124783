import ExplicitModules.FileTree.Walk
import ExplicitModules.Proofs.FileTree.Refilling
import Mathlib.Data.List.Basic

/-!
# Listing trees that differ in content

Two trees with the same entries in the same order, of which only the contents of files differ, give
the same list of paths on every walk.
-/
namespace ExplicitModules
set_option autoImplicit false

/-- What a walk shows of an entry, its content aside. -/
def WalkEntry.outline (e : WalkEntry) : Path × String × Bool × Bool :=
  (e.path, e.name, e.isDirectory, e.isFile)

def WalkEntry.isOutOfReachAs (outline : Path × String × Bool × Bool) : Bool :=
  outline.2.2.1 && decide (FileTree.maxPath < Text.utf8Length outline.1.chars)

theorem WalkEntry.find?_outline (entries : List WalkEntry) :
    (entries.map outline).find? isOutOfReachAs = (entries.find? isOutOfReach).map outline :=
  List.find?_map

namespace FileTree

/-- `u` is `t` with other content in some files, entry by entry. -/
structure SameLayout (t u : FileTree) : Prop where
  shape : t.SameShape u
  locations : u.entries.map Prod.fst = t.entries.map Prod.fst

theorem children_eq (t : FileTree) (loc : Location) :
    t.children loc = (t.entries.map Prod.fst).filterMap fun key =>
      if key.dropLast = loc then key.getLast? else none := by
  rw [children, List.filterMap_map]
  rfl

def walkName (t : FileTree) (keep : WalkEntry → Bool) (loc : Location) (shown : Path)
    (name : String) : List WalkEntry :=
  match t.childEntry? loc shown name with
  | none => []
  | some entry =>
    if keep entry then
      if entry.isDirectory then entry :: t.walkBelow keep (loc ++ [name]) entry.path else [entry]
    else []

theorem walkBelow_eq_flatMap (t : FileTree) (keep : WalkEntry → Bool) (loc : Location)
    (shown : Path) :
    t.walkBelow keep loc shown = (t.sortedChildren loc).flatMap (t.walkName keep loc shown) := by
  rw [walkBelow, List.flatMap_subtype, List.unattach_attach]
  intro name hName
  rfl

/-- A walk that does not fail gives all entries that it comes to. -/
theorem walk_eq_ok_iff {t : FileTree} {keep : WalkEntry → Bool} {root : Path}
    {entries : List WalkEntry} : t.walk keep root = .ok entries ↔
      entries = t.entriesFrom keep root ∧ ∀ e ∈ entries, e.isOutOfReach = false := by
  unfold walk
  dsimp only
  split
  · rename_i e hFound
    refine iff_of_false nofun ?_
    rintro ⟨rfl, hReach⟩
    have hOut := List.find?_some hFound
    rw [hReach e (List.mem_of_find?_eq_some hFound)] at hOut
    cases hOut
  · rename_i hNone
    rw [List.find?_eq_none] at hNone
    rw [Except.ok.injEq, eq_comm, and_iff_left_of_imp]
    rintro rfl e hE
    exact Bool.eq_false_iff.mpr (hNone e hE)

section Layout

variable {t u : FileTree} (h : t.SameLayout u)
include h

theorem SameLayout.sortedChildren_eq (loc : Location) :
    u.sortedChildren loc = t.sortedChildren loc := by
  rw [sortedChildren, sortedChildren, children_eq, children_eq, h.locations]

theorem SameLayout.outline_node? (loc : Location) (p : Path) (name : String) :
    (u.node? loc).map (fun node => WalkEntry.outline ⟨p, name, node⟩) =
      (t.node? loc).map fun node => WalkEntry.outline ⟨p, name, node⟩ := by
  rcases h.shape loc with hSame | ⟨content, content', mode, hT, hU⟩
  · rw [hSame]
  · rw [hT, hU]
    rfl

theorem SameLayout.walkBelow_eq {keep : WalkEntry → Bool}
    (hKeep : ∀ e e', e.outline = e'.outline → keep e = keep e') (loc : Location) (shown : Path) :
    (u.walkBelow keep loc shown).map WalkEntry.outline =
      (t.walkBelow keep loc shown).map WalkEntry.outline := by
  induction loc, shown using walkBelow.induct t with
  | case1 loc shown ih =>
    rw [walkBelow_eq_flatMap, walkBelow_eq_flatMap, List.map_flatMap, List.map_flatMap,
      h.sortedChildren_eq]
    apply List.flatMap_congr
    intro name hName
    have hEntry := h.outline_node? (loc ++ [name]) (shown.joinText name) name
    unfold walkName childEntry?
    cases hU : u.node? (loc ++ [name]) with
    | none =>
      rw [hU] at hEntry
      rw [Option.map_eq_none_iff.mp hEntry.symm]
      rfl
    | some node' =>
      rw [hU, Option.map_some, eq_comm, Option.map_eq_some_iff] at hEntry
      obtain ⟨node, hT, hOutline⟩ := hEntry
      have hBelow := ih name hName ⟨shown.joinText name, name, node⟩
      have hDirectory : (WalkEntry.mk (shown.joinText name) name node').isDirectory =
          (WalkEntry.mk (shown.joinText name) name node).isDirectory :=
        congrArg (fun o => o.2.2.1) hOutline.symm
      rw [hT]
      simp only [Option.map_some]
      rw [hKeep _ _ hOutline, hDirectory]
      split
      · split
        · rw [List.map_cons, List.map_cons, hBelow, hOutline]
        · rw [List.map_singleton, List.map_singleton, hOutline]
      · rfl

theorem SameLayout.entriesFrom_eq {keep : WalkEntry → Bool}
    (hKeep : ∀ e e', e.outline = e'.outline → keep e = keep e') (root : Path) :
    (u.entriesFrom keep root).map WalkEntry.outline =
      (t.entriesFrom keep root).map WalkEntry.outline := by
  unfold entriesFrom
  rw [h.shape.locate_eq, h.shape.locate_eq]
  cases t.locate false root with
  | error e => rfl
  | ok loc =>
    have hFirst := h.outline_node? loc root (root.fileName?.getD "")
    dsimp only
    rw [List.map_append, List.map_append, ← Option.toList_map, ← Option.toList_map,
      Option.map_map, Option.map_map]
    congr 1
    · exact congrArg Option.toList hFirst
    · cases t.locate true root with
      | error e => rfl
      | ok target =>
        dsimp only
        rw [h.shape.isDirectoryAt_eq]
        split
        · exact h.walkBelow_eq hKeep target root
        · rfl

theorem SameLayout.walk_eq {keep : WalkEntry → Bool}
    (hKeep : ∀ e e', e.outline = e'.outline → keep e = keep e') (root : Path) :
    (u.walk keep root).map (List.map WalkEntry.outline) =
      (t.walk keep root).map (List.map WalkEntry.outline) := by
  have hEntries := h.entriesFrom_eq hKeep root
  have hFound := congrArg (List.find? WalkEntry.isOutOfReachAs) hEntries
  rw [WalkEntry.find?_outline, WalkEntry.find?_outline] at hFound
  unfold walk
  dsimp only
  cases hT : (t.entriesFrom keep root).find? WalkEntry.isOutOfReach with
  | none =>
    rw [hT, Option.map_none, Option.map_eq_none_iff] at hFound
    rw [hFound]
    exact congrArg Except.ok hEntries
  | some e =>
    rw [hT, Option.map_some, Option.map_eq_some_iff] at hFound
    obtain ⟨e', hU, hOutline⟩ := hFound
    have hPath : e'.path = e.path := congrArg Prod.fst hOutline
    rw [hU]
    dsimp only
    rw [hPath]

theorem SameLayout.nodeOf?_eq (p : Path) :
    u.isDirectory p = t.isDirectory p ∧ u.isPresent p = t.isPresent p := by
  unfold isDirectory isPresent nodeOf?
  rw [h.shape.locate_eq]
  cases t.locate true p with
  | error e => exact ⟨rfl, rfl⟩
  | ok loc =>
    dsimp only
    rcases h.shape loc with hSame | ⟨content, content', mode, hT, hU⟩
    · rw [hSame]
      exact ⟨rfl, rfl⟩
    · rw [hT, hU]
      exact ⟨rfl, rfl⟩

theorem SameLayout.canonical_eq (p : Path) : u.canonical p = t.canonical p := by
  rw [canonical, canonical, h.shape.resolved_eq]

end Layout

end FileTree
end ExplicitModules
