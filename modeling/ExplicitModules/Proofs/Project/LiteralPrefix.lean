import ExplicitModules.Proofs.Glob.Literal
import ExplicitModules.Proofs.Path.Spelling
import Mathlib.Data.List.Induction

/-!
# Where the walk for a pattern starts

A walk starts at the path that the leading segments without wildcards make up. An empty segment leads
back to the root, so the path is never longer than these segments. A file at which the walk starts
matches the pattern only if the pattern is its path, written out.
-/
namespace ExplicitModules
set_option autoImplicit false
open ExplicitModules.Path (segments joinSegments)

namespace Project

section Prefix

variable {p : Path} {s : List Char}

@[simp] theorem extendPrefix_nil (p : Path) : extendPrefix p [] = ⟨"/"⟩ := rfl

theorem chars_extendPrefix (hSome : s ≠ []) (hPlain : '/' ∉ s) :
    (extendPrefix p s).chars =
      if p.chars = [] ∨ p.chars.getLast? = some '/' then p.chars ++ s else p.chars ++ '/' :: s := by
  rw [extendPrefix, if_neg hSome, Path.join, Path.isAbsolute_of_plain hPlain,
    if_neg Bool.false_ne_true, Path.chars_ofChars]
  split <;> exact Path.chars_ofChars _

/-- The path that segments make up is not longer than they are with slashes between them, the root
apart. -/
theorem length_foldl_extendPrefix {segs : List (List Char)} (hPlain : ∀ s ∈ segs, '/' ∉ s)
    (hRoot : segs ≠ [[]]) :
    (segs.foldl extendPrefix ⟨""⟩).chars.length ≤ (joinSegments segs).length := by
  induction segs using List.reverseRecOn with
  | nil => exact Nat.le_refl 0
  | append_singleton front s ih =>
    rw [List.forall_mem_append, List.forall_mem_singleton] at hPlain
    rw [List.foldl_concat, Path.length_joinSegments_append_singleton]
    by_cases hFront : front = []
    · subst hFront
      have hSome : s ≠ [] := by
        rintro rfl
        exact hRoot rfl
      rw [chars_extendPrefix hSome hPlain.2]
      simp [Path.chars]
    · rw [if_neg hFront]
      by_cases hSome : s = []
      · subst hSome
        rw [extendPrefix_nil]
        exact Nat.le_add_left 1 _
      · rw [chars_extendPrefix hSome hPlain.2]
        by_cases hSlash : front = [[]]
        · subst hSlash
          have hRootChars : ([[]].foldl extendPrefix ⟨""⟩).chars = ['/'] := rfl
          have hEnd : ['/'] = [] ∨ ['/'].getLast? = some '/' := Or.inr rfl
          rw [hRootChars, if_pos hEnd, List.singleton_append, List.length_cons, joinSegments,
            List.length_nil]
          omega
        · have hLength := ih hPlain.1 hSlash
          split
          · rw [List.length_append]
            omega
          · rw [List.length_append, List.length_cons]
            omega

end Prefix

def plainSegments (text : List Char) : List (List Char) :=
  (segments text).takeWhile fun s => !s.any Glob.isWildcard

theorem isWildcard_of_mem_plainSegments {text s : List Char} (h : s ∈ plainSegments text) :
    ∀ c ∈ s, Glob.isWildcard c = false := by
  have hPlain := List.mem_takeWhile_imp h
  simpa using hPlain

theorem slash_notMem_of_mem_plainSegments {text s : List Char} (h : s ∈ plainSegments text) :
    '/' ∉ s :=
  Path.slash_notMem_of_mem_segments ((List.takeWhile_subset _) h)

theorem joinSegments_plainSegments (text : List Char) :
    ∀ c ∈ joinSegments (plainSegments text), Glob.isWildcard c = false := by
  intro c hC
  rcases Path.mem_joinSegments hC with rfl | ⟨s, hS, hMem⟩
  · rfl
  · exact isWildcard_of_mem_plainSegments hS c hMem

/-- A text is its plain segments, or goes on behind them with a slash. -/
theorem eq_or_exists_behind (text : List Char) : text = joinSegments (plainSegments text) ∨
    plainSegments text = [] ∨ ∃ more, text = joinSegments (plainSegments text) ++ '/' :: more := by
  have hSplit : plainSegments text ++ (segments text).dropWhile (fun s => !s.any Glob.isWildcard) =
      segments text := List.takeWhile_append_dropWhile
  have hText := Path.joinSegments_segments text
  rw [← hSplit] at hText
  by_cases hRest : (segments text).dropWhile (fun s => !s.any Glob.isWildcard) = []
  · rw [hRest, List.append_nil] at hText
    exact Or.inl hText.symm
  · by_cases hPlain : plainSegments text = []
    · exact Or.inr (Or.inl hPlain)
    · rw [Path.joinSegments_append hPlain hRest] at hText
      exact Or.inr (Or.inr ⟨_, hText.symm⟩)

section Start

variable {t : FileTree} {text : List Char} {compiled : Glob.Pattern} {loc : Location}

theorem locate_empty (t : FileTree) (follow : Bool) :
    t.locate follow ⟨""⟩ = .error .notFound := rfl

theorem locate_root (t : FileTree) (follow : Bool) : t.locate follow ⟨"/"⟩ = .ok [] := by
  have hDirectory : t.isDirectoryAt [] = true := rfl
  have hStep : t.stepTo [] [] = .ok ([], none) := by simp [FileTree.stepTo, hDirectory, Path.isTrivial]
  have hWalk : t.walkTo follow FileTree.maxLinks [] [[], []] = .ok [] := by
    rw [FileTree.walkTo_cons_of_none hStep, FileTree.walkTo_cons_of_none hStep, FileTree.walkTo_nil]
  exact hWalk

/-- A pattern matches the place where its walk starts, if that is no directory, only if it is the
path of that place. -/
theorem eq_literalPrefix_of_accepts (hCompiled : Glob.Pattern.ofText? text = some compiled)
    (hLoc : t.locate false (literalPrefix text) = .ok loc) (hFile : t.isDirectoryAt loc = false)
    (hAccepts : compiled.accepts (literalPrefix text).chars = true) :
    (literalPrefix text).chars = text ∧ ∀ c ∈ text, Glob.isWildcard c = false := by
  have hPlain := joinSegments_plainSegments text
  have hReads := Glob.ReadsAs.of_plain hPlain
  rcases eq_or_exists_behind text with hText | hNone | ⟨more, hText⟩
  · rw [← hText] at hPlain hReads
    obtain ⟨pattern, hPattern, hOnly⟩ := hReads.exists_pattern
    rw [hCompiled] at hPattern
    obtain rfl := Option.some.inj hPattern
    exact ⟨(hOnly _).mp hAccepts, hPlain⟩
  · have hEmpty : literalPrefix text = ⟨""⟩ := by
      rw [literalPrefix, ← plainSegments, hNone, List.foldl_nil]
    rw [hEmpty, locate_empty] at hLoc
    cases hLoc
  · rw [hText] at hCompiled
    obtain ⟨rest, hBelow⟩ := hReads.below_of_accepts hCompiled hAccepts
    by_cases hRoot : plainSegments text = [[]]
    · have hSlash : literalPrefix text = ⟨"/"⟩ := by
        rw [literalPrefix, ← plainSegments, hRoot, List.foldl_cons, List.foldl_nil, extendPrefix_nil]
      rw [hSlash, locate_root] at hLoc
      obtain rfl := Except.ok.inj hLoc
      cases hFile
    · have hLength := length_foldl_extendPrefix
        (fun s hS => slash_notMem_of_mem_plainSegments hS) hRoot
      have hSame := congrArg List.length hBelow
      rw [literalPrefix, ← plainSegments, List.length_append, List.length_cons] at hSame
      omega

end Start
end Project
end ExplicitModules
