import ExplicitModules.Proofs.Path.Behind
import Mathlib.Data.List.Induction
import Mathlib.Data.List.Infix

/-!
# Ancestors of a path

The parent of an absolute path has the components of the path without the last one, whatever slashes
and dots it is spelled with. So the ancestors run through all beginnings of the components, the
longest first, down to the root alone.
-/
namespace ExplicitModules.Path
set_option autoImplicit false

variable {p q : Path} {segs : List (List Char)}

theorem filter_trimEnd (segs : List (List Char)) :
    ((trimEnd segs).filter fun s => !isTrivial s) = segs.filter fun s => !isTrivial s := by
  induction segs using List.reverseRecOn with
  | nil => rfl
  | append_singleton segs s ih =>
    rw [trimEnd_concat]
    split
    · rename_i hTrivial
      rw [ih, List.filter_append]
      simp [hTrivial]
    · rfl

theorem moving_slash (cs : List Char) : moving ('/' :: cs) = moving cs := by
  rw [← List.nil_append ('/' :: cs), moving_append_slash]
  rfl

theorem moving_joinSegments (hPlain : ∀ s ∈ segs, '/' ∉ s) :
    moving (joinSegments segs) = segs.filter fun s => !isTrivial s := by
  cases segs with
  | nil => rfl
  | cons s rest => rw [moving, segments_joinSegments (List.cons_ne_nil s rest) hPlain]

/-- An absolute path is the root, or its parent has all of its components but the last one. -/
theorem parent?_cases (h : p.isAbsolute = true) :
    (p.parent? = none ∧ p.components = [.root]) ∨
      ∃ q c, p.parent? = some q ∧ q.isAbsolute = true ∧ p.components = q.components ++ [c] := by
  obtain ⟨rest, hChars⟩ := exists_chars_of_isAbsolute h
  have hComponents : p.components =
      .root :: ((trimEnd (segments rest)).filter fun s => !isTrivial s).map componentOf := by
    rw [components_of_absolute h, hChars, moving_slash, moving, filter_trimEnd]
  rcases List.eq_nil_or_concat' (trimEnd (segments rest)) with hNil | ⟨front, last, hTrim⟩
  · left
    constructor
    · rw [parent?, hChars, splitLead]
      simp [hNil]
    · rw [hComponents, hNil]
      rfl
  · right
    have hLast : isTrivial last = false := by
      have hEnd := getLast_trimEnd (segments rest) (by simp [hTrim])
      simpa [hTrim] using hEnd
    -- the segments of the parent are segments of the path, so no slash is in them
    have hFront : trimEnd front <+: segments rest :=
      (prefix_trimEnd front).trans ((hTrim ▸ List.prefix_append front [last]).trans
        (prefix_trimEnd (segments rest)))
    have hAbsolute : (ofChars ('/' :: joinSegments (trimEnd front))).isAbsolute = true := by
      simp [isAbsolute]
    refine ⟨ofChars ('/' :: joinSegments (trimEnd front)), componentOf last, ?_, hAbsolute, ?_⟩
    · rw [parent?, hChars, splitLead]
      simp [hTrim]
    · rw [components_of_absolute hAbsolute, chars_ofChars, moving_slash, moving_joinSegments
        fun s hS => slash_notMem_of_mem_segments (hFront.subset hS), filter_trimEnd, hComponents, hTrim]
      simp [hLast]

theorem ancestors_of_none (h : p.parent? = none) : p.ancestors = [p] := by
  rw [ancestors]
  split
  · rfl
  · rename_i q hParent
    rw [h] at hParent
    cases hParent

theorem ancestors_of_some (h : p.parent? = some q) : p.ancestors = p :: q.ancestors := by
  rw [ancestors]
  split
  · rename_i hParent
    rw [h] at hParent
    cases hParent
  · rename_i q' hParent
    rw [h] at hParent
    rw [Option.some.inj hParent]

/-- The paths from `p` up to the root: each one is the parent of the one before, and their components
are the beginnings of those of `p`, from all of them down to the root alone. -/
structure Climbs (p : Path) (above : List Path) : Prop where
  head : above.head? = some p
  absolute : ∀ q ∈ above, q.isAbsolute = true
  parents : above.IsChain fun lower upper => lower.parent? = some upper
  components : above.map Path.components = p.components.inits.tail.reverse

theorem climbs_ancestors (h : p.isAbsolute = true) : p.Climbs p.ancestors := by
  induction p using ancestors.induct with
  | case1 p hNone =>
    obtain ⟨-, hRoot⟩ | ⟨q, c, hSome, -⟩ := parent?_cases h
    · rw [ancestors_of_none hNone]
      exact ⟨rfl, by simpa using h, List.IsChain.singleton p, by rw [hRoot]; simp [hRoot]⟩
    · rw [hNone] at hSome
      cases hSome
  | case2 p q hParent ih =>
    obtain ⟨hNone, -⟩ | ⟨q', c, hSome, hAbsolute, hComponents⟩ := parent?_cases h
    · rw [hParent] at hNone
      cases hNone
    -- the beginnings of the components are those of the parent's and the components themselves
    · obtain rfl := Option.some.inj (hParent.symm.trans hSome)
      have hAbove := ih hAbsolute
      obtain ⟨upper, hUpper⟩ := List.head?_eq_some_iff.mp hAbove.head
      rw [ancestors_of_some hParent]
      refine ⟨rfl, List.forall_mem_cons.mpr ⟨h, hAbove.absolute⟩, ?_, ?_⟩
      · have hChain := hAbove.parents
        rw [hUpper] at hChain ⊢
        exact List.isChain_cons_cons.mpr ⟨hParent, hChain⟩
      · have hSome : q.components.inits ≠ [] :=
          List.ne_nil_of_mem ((List.mem_inits _ _).mpr List.nil_prefix)
        rw [List.map_cons, hAbove.components, hComponents, List.inits_append,
          List.tail_append_of_ne_nil hSome]
        simp

end ExplicitModules.Path
