import ExplicitModules.Proofs.Path.Behind

/-!
# Where a path leads without links

In a tree without links a path that leads anywhere leads to the names it holds, each `..` taking one
away. Empty segments and dots make no difference.
-/
namespace ExplicitModules
set_option autoImplicit false
open ExplicitModules.Path (segments joinSegments isTrivial)

namespace FileTree

/-- The location that segments lead to, as far as nothing on the way is a link. -/
def arrive (current : Location) (segs : List (List Char)) : Location :=
  segs.foldl (fun loc s =>
    if isTrivial s then loc
    else if s = ['.', '.'] then loc.dropLast
    else loc ++ [String.ofList s]) current

theorem arrive_moving (current : Location) (segs : List (List Char)) :
    arrive current (segs.filter fun s => !isTrivial s) = arrive current segs := by
  induction segs generalizing current with
  | nil => rfl
  | cons s segs ih =>
    by_cases hTrivial : isTrivial s = true
    · rw [List.filter_cons_of_neg (by simp [hTrivial]), ih, arrive, arrive, List.foldl_cons,
        if_pos hTrivial]
    · rw [List.filter_cons_of_pos (by simp [hTrivial]), arrive, List.foldl_cons, ← arrive, ih, arrive,
        arrive, List.foldl_cons]

theorem arrive_names {segs : List (List Char)}
    (h : ∀ s ∈ segs, isTrivial s = false ∧ s ≠ ['.', '.']) (current : Location) :
    arrive current segs = current ++ segs.map String.ofList := by
  induction segs generalizing current with
  | nil => exact (List.append_nil _).symm
  | cons s segs ih =>
    rw [List.forall_mem_cons] at h
    rw [arrive, List.foldl_cons, ← arrive, if_neg (by simp [h.1.1]), if_neg h.1.2, ih h.2]
    simp

def isLink : Node → Bool
  | .link _ => true
  | _ => false

def LinkFree (t : FileTree) : Prop :=
  ∀ entry ∈ t.entries, isLink entry.2 = false

instance (t : FileTree) : Decidable t.LinkFree :=
  inferInstanceAs (Decidable (∀ entry ∈ t.entries, isLink entry.2 = false))

theorem LinkFree.not_isLinkAt {t : FileTree} (h : t.LinkFree) (loc : Location) : ¬t.IsLinkAt loc := by
  rintro ⟨target, hNode⟩
  unfold node? at hNode
  split at hNode
  · cases hNode
  · obtain ⟨front, back, hEntries, -⟩ := List.lookup_eq_some_iff.mp hNode
    cases h (loc, .link target) (by simp [hEntries])

section Links

variable {t : FileTree} (hLinks : t.LinkFree)
include hLinks

theorem walkTo_eq_arrive {links : Nat} {current loc : Location} {pending : List (List Char)}
    (h : t.walkTo true links current pending = .ok loc) : loc = arrive current pending := by
  induction links, current, pending using walk_induction with
  | nil links current =>
    rw [walkTo_nil] at h
    exact (Except.ok.inj h).symm
  | cons links current segment rest ihRest ihLink =>
    rcases walkTo_cons_eq_ok h with ⟨next, hStep, h⟩ | ⟨next, target, links, rfl, hStep, -⟩
    · rw [ihRest next h, arrive, arrive, List.foldl_cons]
      congr 1
      rcases (stepTo_cases hStep).2 with ⟨hTrivial, rfl, -⟩ | ⟨hTrivial, hUp, rfl, -⟩ |
        ⟨hTrivial, hUp, rfl, -⟩
      · rw [if_pos hTrivial]
      · rw [if_neg (by simp [hTrivial]), if_pos hUp]
      · rw [if_neg (by simp [hTrivial]), if_neg hUp]
    · exact absurd ⟨target, (stepTo_eq_link hStep).2⟩ (hLinks.not_isLinkAt next)

theorem trace_eq_arrive {p : Path} {loc : Location} (h : t.trace true p = .ok loc) :
    loc = arrive [] (Path.moving p.chars) := by
  rw [Path.moving, arrive_moving]
  exact walkTo_eq_arrive hLinks (walkTo_of_trace h)

end Links

end FileTree
end ExplicitModules
