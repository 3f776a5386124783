import ExplicitModules.Proofs.Path.Behind
import ExplicitModules.Proofs.Project.LiteralPrefix
import ExplicitModules.Proofs.Project.Selection

/-!
# Patterns behind a directory

A pattern is put behind the directory that it belongs to. Where the path of the directory reads the same
in a pattern, the walk starts at the directory and goes on along the leading segments of the pattern that
have no wildcards; if one of these is empty, nothing that is walked matches.
-/
namespace ExplicitModules
set_option autoImplicit false
open ExplicitModules.Path (segments moving way below GoesOn)

namespace Glob

theorem readTokens?_goesOn {x : List Char} (h : GoesOn x) (previous : Option Char) :
    readTokens? previous x = readTokens? none x := by
  rcases h with rfl | ⟨rest, rfl⟩
  · rw [readTokens?, readTokens?]
  · rw [readTokens?_char previous rest rfl, readTokens?_char none rest rfl]

namespace ReadsAs

variable {front cs x : List Char} {compiled : Pattern}

/-- A pattern matches nothing but what goes on behind its literal part. -/
theorem goesOn_of_accepts (h : ReadsAs front cs) (hX : GoesOn x)
    (hCompiled : Pattern.ofText? (front ++ x) = some compiled) {p : List Char}
    (hAccepts : compiled.accepts p = true) : ∃ y, GoesOn y ∧ p = cs ++ y := by
  rcases hX with rfl | ⟨more, rfl⟩
  · obtain ⟨pattern, hPattern, hOnly⟩ := h.exists_pattern
    rw [List.append_nil, hPattern] at hCompiled
    obtain rfl := Option.some.inj hCompiled
    exact ⟨[], Or.inl rfl, by rw [List.append_nil]; exact (hOnly p).mp hAccepts⟩
  · obtain ⟨rest, hBelow⟩ := h.below_of_accepts hCompiled hAccepts
    exact ⟨_, Or.inr ⟨rest, rfl⟩, hBelow⟩

/-- What is behind the literal part of a pattern is matched whatever that part is. -/
theorem exists_moved {front' cs' : List Char} (h : ReadsAs front cs) (h' : ReadsAs front' cs')
    (hX : GoesOn x) (hCompiled : Pattern.ofText? (front ++ x) = some compiled) :
    ∃ moved, Pattern.ofText? (front' ++ x) = some moved ∧
      ∀ y, moved.accepts (cs' ++ y) = compiled.accepts (cs ++ y) := by
  obtain ⟨tokens, hSpells, hRead⟩ := h
  obtain ⟨tokens', hSpells', hRead'⟩ := h'
  rw [Pattern.ofText?, hRead, readTokens?_goesOn hX] at hCompiled
  obtain ⟨rest, hRest, rfl⟩ := Option.map_eq_some_iff.mp hCompiled
  refine ⟨tokens' ++ rest, ?_, fun y => ?_⟩
  · rw [Pattern.ofText?, hRead', readTokens?_goesOn hX, hRest, Option.map_some]
  · rw [Bool.eq_iff_iff, Pattern.accepts_spelled hSpells, Pattern.accepts_spelled hSpells']
    simp

end ReadsAs
end Glob

namespace Project
open Glob (Pattern ReadsAs)

section Trimming

theorem suffix_trimStart (cs : List Char) : trimStart cs <:+ cs := by
  fun_induction trimStart cs with
  | case1 cs ih => exact ih.trans ((List.suffix_cons '/' cs).trans (List.suffix_cons '.' _))
  | case2 => exact List.suffix_rfl

theorem prefix_trimSlashes (cs : List Char) : trimSlashes cs <+: cs := by
  rw [trimSlashes, ← List.reverse_suffix, List.reverse_reverse]
  exact List.dropWhile_suffix _

theorem moving_trimStart (cs : List Char) : moving (trimStart cs) = moving cs := by
  fun_induction trimStart cs with
  | case1 cs ih =>
    rw [ih, ← List.singleton_append, Path.moving_append_slash]
    rfl
  | case2 => rfl

theorem moving_trimSlashes (cs : List Char) : moving (trimSlashes cs) = moving cs := by
  induction cs using List.reverseRecOn with
  | nil => rfl
  | append_singleton cs c ih =>
    by_cases hSlash : c = '/'
    · subst hSlash
      rw [Path.moving_concat_slash, ← ih, trimSlashes, List.reverse_concat,
        List.dropWhile_cons_of_pos (by simp)]
      rfl
    · rw [trimSlashes, List.reverse_concat, List.dropWhile_cons_of_neg (by simpa using hSlash),
        List.reverse_cons, List.reverse_reverse]

end Trimming

section Trails

/-- What a pattern puts behind the directory that it is anchored at. -/
def trail (pattern : String) : List Char :=
  let trimmed := trimSlashes (trimStart pattern.toList)
  if trimmed = [] ∨ trimmed = ['.'] then [] else '/' :: trimmed

theorem anchored_eq (base : Path) (pattern : String) :
    anchored base pattern = escapedPath base ++ trail pattern := by
  unfold anchored trail
  dsimp only
  split
  · rw [List.append_nil]
  · rfl

theorem goesOn_trail (pattern : String) : GoesOn (trail pattern) := by
  unfold trail
  dsimp only
  split
  · exact Or.inl rfl
  · exact Or.inr ⟨_, rfl⟩

theorem moving_trail (pattern : String) : moving (trail pattern) = moving pattern.toList := by
  have hTrimmed : moving (trimSlashes (trimStart pattern.toList)) = moving pattern.toList := by
    rw [moving_trimSlashes, moving_trimStart]
  rw [← hTrimmed]
  unfold trail
  dsimp only
  split
  · rename_i hTrivial
    rcases hTrivial with hEmpty | hDot
    · rw [hEmpty]
    · rw [hDot]
      rfl
  · rw [← List.nil_append ('/' :: _), Path.moving_append_slash]
    rfl

theorem utf8Length_trail_le (pattern : String) :
    Text.utf8Length (trail pattern) ≤ 1 + Text.utf8Length pattern.toList := by
  obtain ⟨front, hFront⟩ := suffix_trimStart pattern.toList
  obtain ⟨back, hBack⟩ := prefix_trimSlashes (trimStart pattern.toList)
  rw [← hFront, ← hBack]
  unfold trail
  dsimp only
  split
  · exact Nat.zero_le _
  · rw [Text.utf8Length_cons, Text.utf8Length_append, Text.utf8Length_append]
    have hSlash : Char.utf8Size '/' = 1 := rfl
    omega

theorem isWildcard_trail (pattern : String) :
    (trail pattern).any Glob.isWildcard =
      (trimSlashes (trimStart pattern.toList)).any Glob.isWildcard := by
  unfold trail
  dsimp only
  split
  · rename_i hTrivial
    rcases hTrivial with hEmpty | hDot
    · rw [hEmpty]
    · rw [hDot]
      rfl
  · rfl

theorem plain_trail {pattern : String} (hPlain : ∀ c ∈ pattern.toList, Glob.isWildcard c = false) :
    ∀ c ∈ trail pattern, Glob.isWildcard c = false := by
  have hNone : (trail pattern).any Glob.isWildcard = false := by
    rw [isWildcard_trail, List.any_eq_false]
    intro c hC
    rw [hPlain c ((suffix_trimStart _).subset ((prefix_trimSlashes _).subset hC))]
    exact Bool.false_ne_true
  simpa using hNone

/-- What a pattern puts behind its directory if the plain name of a directory means all below it. -/
def wholeTrail (t : FileTree) (base : Path) (pattern : String) : List Char :=
  if !(trail pattern).any Glob.isWildcard && t.isDirectory (base.behind (trail pattern)) then
    trail pattern ++ everythingBelow
  else trail pattern

theorem goesOn_everythingBelow : GoesOn everythingBelow :=
  Or.inr ⟨_, Glob.everythingBelow_eq⟩

theorem goesOn_wholeTrail (t : FileTree) (base : Path) (pattern : String) :
    GoesOn (wholeTrail t base pattern) := by
  unfold wholeTrail
  split
  · exact (goesOn_trail pattern).concat goesOn_everythingBelow
  · exact goesOn_trail pattern

def plainWay (x : List Char) : List (List Char) :=
  (way x).takeWhile fun s => !s.any Glob.isWildcard

theorem prefix_plainWay (x : List Char) : plainWay x <+: way x :=
  List.takeWhile_prefix _

theorem plainWay_everythingBelow {x : List Char} (h : GoesOn x) :
    plainWay (x ++ everythingBelow) = plainWay x := by
  have hWay : way (x ++ everythingBelow) = way x ++ [['*', '*'], ['*']] := by
    rcases h with rfl | ⟨rest, rfl⟩
    · rw [Glob.everythingBelow_eq]
      rfl
    · rw [List.cons_append, way, goesOn_everythingBelow.segments_append, Glob.everythingBelow_eq]
      rfl
  rw [plainWay, hWay, List.takeWhile_append]
  split
  · rename_i hAll
    rw [plainWay, List.takeWhile_cons_of_neg (by decide), List.append_nil,
      (List.takeWhile_prefix _).eq_of_length hAll]
  · rfl

theorem plainWay_wholeTrail (t : FileTree) (base : Path) (pattern : String) :
    plainWay (wholeTrail t base pattern) = plainWay (trail pattern) := by
  unfold wholeTrail
  split
  · exact plainWay_everythingBelow (goesOn_trail pattern)
  · rfl

end Trails

section Bases

/-- A character that stands for itself in a pattern and in a path that is made into one. -/
def isOrdinary (c : Char) : Bool :=
  !Glob.isWildcard c && c != ']' && c != '\\'

def Ordinary (p : Path) : Prop :=
  ∀ c ∈ p.chars, isOrdinary c = true

instance (p : Path) : Decidable (Ordinary p) :=
  inferInstanceAs (Decidable (∀ c ∈ p.chars, isOrdinary c = true))

variable {p : Path}

theorem Ordinary.plain (h : Ordinary p) : ∀ c ∈ p.chars, Glob.isWildcard c = false := by
  intro c hC
  have hOrdinary := h c hC
  simp only [isOrdinary, Bool.and_eq_true, Bool.not_eq_true'] at hOrdinary
  exact hOrdinary.1.1

theorem escape_of_ordinary {cs : List Char} (h : ∀ c ∈ cs, isOrdinary c = true) :
    Glob.escape (cs.map fun c => if c = '\\' then '/' else c) = cs := by
  induction cs with
  | nil => rfl
  | cons c cs ih =>
    rw [List.forall_mem_cons] at h
    have hHead := h.1
    simp only [isOrdinary, Bool.and_eq_true, Bool.not_eq_true', bne_iff_ne] at hHead
    have hRest := ih h.2
    rw [Glob.escape] at hRest ⊢
    rw [List.map_cons, if_neg hHead.2, List.flatMap_cons, hRest,
      if_neg (by simp [hHead.1.1, hHead.1.2])]
    rfl

theorem Ordinary.escapedPath_behind (h : Ordinary p) (x : List Char) :
    escapedPath (p.behind x) = p.chars ++ escapedPath (Path.ofChars x) := by
  rw [escapedPath, Path.chars_behind, List.map_append, Glob.escape, List.flatMap_append,
    ← Glob.escape, escape_of_ordinary h, escapedPath, Path.chars_ofChars]
  rfl

theorem goesOn_escapedPath {x : List Char} (h : GoesOn x) : GoesOn (escapedPath (Path.ofChars x)) := by
  rw [escapedPath, Path.chars_ofChars]
  rcases h with rfl | ⟨rest, rfl⟩
  · exact Or.inl rfl
  · exact Or.inr ⟨_, rfl⟩

theorem Ordinary.absolutePattern_eq (h : Ordinary p) (t : FileTree) (pattern : String) :
    absolutePattern t p pattern = p.chars ++ wholeTrail t p pattern := by
  have hBase : escapedPath p = p.chars := escape_of_ordinary h
  unfold absolutePattern wholeTrail
  dsimp only
  rw [anchored_eq, hBase, isWildcard_trail, ← Path.behind]
  split
  · rw [List.append_assoc]
  · rfl

end Bases

section Prefix

/-- What a path puts behind a directory segment by segment. -/
def Solid (segs : List (List Char)) : Prop :=
  ∀ s ∈ segs, s ≠ [] ∧ '/' ∉ s

variable {p : Path} {s : List Char} {segs : List (List Char)} {names : List String}

theorem solid_names (hNames : ∀ n ∈ names, Path.IsName n) : Solid (names.map String.toList) := by
  intro s hS
  obtain ⟨n, hN, rfl⟩ := List.mem_map.mp hS
  exact ⟨(hNames n hN).ne_nil, (hNames n hN).plain⟩

theorem extendPrefix_behind (h : p.EndsInName) (hSome : s ≠ []) (hPlain : '/' ∉ s) :
    extendPrefix p s = p.behind ('/' :: s) := by
  have hChars := chars_extendPrefix (p := p) hSome hPlain
  rw [if_neg (not_or.mpr h)] at hChars
  rw [← Path.ofChars_chars (extendPrefix p s), hChars]
  rfl

theorem endsInName_behind (hSome : s ≠ []) (hPlain : '/' ∉ s) (p : Path) :
    (p.behind ('/' :: s)).EndsInName := by
  obtain ⟨front, c, rfl⟩ := (List.eq_nil_or_concat' s).resolve_left hSome
  rw [Path.EndsInName, Path.chars_behind, ← List.cons_append, ← List.append_assoc, List.getLast?_concat]
  refine ⟨by simp, fun hSlash => hPlain ?_⟩
  rw [Option.some.inj hSlash]
  simp

theorem foldl_extendPrefix_behind (h : p.EndsInName) (hSolid : Solid segs) :
    segs.foldl extendPrefix p = p.behind (below segs) ∧ (p.behind (below segs)).EndsInName := by
  induction segs generalizing p with
  | nil =>
    have hSame : p.behind [] = p := by rw [Path.behind, List.append_nil, Path.ofChars_chars]
    rw [Path.below, List.flatMap_nil, hSame]
    exact ⟨rfl, h⟩
  | cons s segs ih =>
    rw [Solid, List.forall_mem_cons] at hSolid
    rw [List.foldl_cons, extendPrefix_behind h hSolid.1.1 hSolid.1.2, Path.below_cons,
      ← List.cons_append, ← Path.behind_behind]
    exact ih (endsInName_behind hSolid.1.1 hSolid.1.2 p) hSolid.2

theorem foldl_extendPrefix_names (hNames : ∀ n ∈ names, Path.IsName n) (p : Path) :
    (names.map String.toList).foldl extendPrefix p = p.descend names := by
  rw [List.foldl_map, Path.descend]
  refine List.foldl_ext _ _ _ fun p n hN => ?_
  rw [extendPrefix, if_neg (hNames n hN).ne_nil, Path.ofChars, String.ofList_toList]
  rfl

theorem descend_eq_behind (h : p.EndsInName) (hNames : ∀ n ∈ names, Path.IsName n) :
    p.descend names = p.behind (below (names.map String.toList)) := by
  rw [← foldl_extendPrefix_names hNames]
  exact (foldl_extendPrefix_behind h (solid_names hNames)).1

theorem descend_behind {x : List Char} (h : (p.behind x).EndsInName)
    (hNames : ∀ n ∈ names, Path.IsName n) :
    (p.behind x).descend names = p.behind (x ++ below (names.map String.toList)) := by
  rw [descend_eq_behind h hNames, Path.behind_behind]

theorem components_descend (hAbsolute : p.isAbsolute = true)
    (hEnd : p.EndsInName) (hNames : ∀ n ∈ names, Path.IsName n) :
    (p.descend names).components = p.components ++ names.map .name := by
  rw [descend_eq_behind hEnd hNames, Path.components_behind hAbsolute (Path.goesOn_below _),
    Path.moving_names hNames, List.map_map]
  congr 1
  exact List.map_congr_left fun n hN => Path.componentOf_name (hNames n hN)

/-- The root, or segments that are not empty, each behind a slash. -/
def Built (p : Path) : Prop :=
  p = ⟨"/"⟩ ∨ ∃ segs, segs ≠ [] ∧ Solid segs ∧ p.chars = below segs

theorem Built.extendPrefix (h : Built p) (hPlain : '/' ∉ s) : Built (extendPrefix p s) := by
  by_cases hSome : s = []
  · exact Or.inl (by rw [hSome, extendPrefix_nil])
  · refine Or.inr ?_
    rw [chars_extendPrefix hSome hPlain]
    rcases h with rfl | ⟨segs, hSegs, hSolid, hChars⟩
    · refine ⟨[s], List.cons_ne_nil s [], by simpa [Solid] using ⟨hSome, hPlain⟩, ?_⟩
      simp [Path.chars, Path.below]
    · refine ⟨segs ++ [s], by simp, List.forall_mem_append.mpr ⟨hSolid, by simpa using ⟨hSome, hPlain⟩⟩, ?_⟩
      obtain ⟨front, last, rfl⟩ := (List.eq_nil_or_concat' segs).resolve_left hSegs
      have hEnd := endsInName_behind (hSolid last (by simp)).1 (hSolid last (by simp)).2
        (Path.ofChars (below front))
      have hSame : ((Path.ofChars (below front)).behind ('/' :: last)).chars = p.chars := by
        rw [hChars, Path.chars_behind, Path.chars_ofChars, Path.below_append, Path.below_cons]
        simp [Path.below]
      rw [Path.EndsInName, hSame] at hEnd
      rw [if_neg (not_or.mpr hEnd), hChars, Path.below_append, Path.below_cons]
      simp [Path.below]

theorem Built.foldl_extendPrefix (h : Built p) (hPlain : ∀ s ∈ segs, '/' ∉ s) :
    Built (segs.foldl Project.extendPrefix p) := by
  induction segs generalizing p with
  | nil => exact h
  | cons s segs ih =>
    rw [List.forall_mem_cons] at hPlain
    exact ih (h.extendPrefix hPlain.1) hPlain.2

theorem Built.way_eq (h : Built p) : way p.chars = [[]] ∨ Solid (way p.chars) := by
  rcases h with rfl | ⟨segs, -, hSolid, hChars⟩
  · exact Or.inl rfl
  · rw [hChars, Path.way_below fun s hS => (hSolid s hS).2]
    exact Or.inr hSolid

end Prefix

section Start

variable {r : Location} {x : List Char}

/-- Behind a location the walk goes on along the leading segments without wildcards. -/
theorem literalPrefix_behind (hNames : ∀ n ∈ r, Path.IsName n) (hSome : r ≠ [])
    (hPlain : ∀ c ∈ (FileTree.pathOf r).chars, Glob.isWildcard c = false) (hX : GoesOn x) :
    literalPrefix ((FileTree.pathOf r).chars ++ x) =
      (plainWay x).foldl extendPrefix (FileTree.pathOf r) := by
  have hRoot : (FileTree.pathOf []).descend r = FileTree.pathOf r := FileTree.descend_pathOf hNames
  have hFront : ∀ s ∈ [] :: r.map String.toList, (!s.any Glob.isWildcard) = true := by
    refine List.forall_mem_cons.mpr ⟨rfl, fun s hS => ?_⟩
    simp only [Bool.not_eq_true', List.any_eq_false, Bool.not_eq_true]
    intro c hC
    refine hPlain c ?_
    rw [FileTree.chars_pathOf_of_ne_nil hSome]
    exact List.mem_flatMap.mpr ⟨s, hS, List.mem_cons_of_mem _ hC⟩
  rw [literalPrefix, hX.segments_append, FileTree.segments_pathOf hNames hSome,
    List.takeWhile_append_of_pos hFront, List.foldl_append, List.foldl_cons, extendPrefix_nil,
    foldl_extendPrefix_names hNames, ← plainWay, ← hRoot]
  rfl

theorem plain_below_plainWay (x : List Char) :
    ∀ c ∈ below (plainWay x), Glob.isWildcard c = false := by
  intro c hC
  obtain ⟨s, hS, hMem⟩ := List.mem_flatMap.mp hC
  rcases List.mem_cons.mp hMem with rfl | hHere
  · rfl
  · have hPlain := List.mem_takeWhile_imp hS
    simp only [Bool.not_eq_true', List.any_eq_false, Bool.not_eq_true] at hPlain
    exact hPlain c hHere

/-- A pattern with an empty segment in front of its wildcards selects nothing. -/
theorem solid_of_mem_foundFiles {t : FileTree} (hNamed : t.Named)
    (hNames : ∀ n ∈ r, Path.IsName n) (hSome : r ≠ []) (hOrdinary : Ordinary (FileTree.pathOf r))
    {allowJs : Bool} {excluded : List Pattern} {pattern : String} {p : Path}
    (h : p ∈ foundFiles t allowJs excluded (FileTree.pathOf r) pattern) :
    Solid (plainWay (trail pattern)) := by
  have hText := hOrdinary.absolutePattern_eq t pattern
  have hTrail := goesOn_wholeTrail t (FileTree.pathOf r) pattern
  rw [← plainWay_wholeTrail t (FileTree.pathOf r) pattern]
  revert hText hTrail
  generalize wholeTrail t (FileTree.pathOf r) pattern = x
  intro hText hTrail
  obtain ⟨compiled, hPattern, -, hFinds, -, hAccepts⟩ := finds_of_mem_foundFiles h
  rw [hText] at hPattern hFinds
  have hRoot : Built (FileTree.pathOf r) :=
    Or.inr ⟨_, by simpa using hSome, solid_names hNames, FileTree.chars_pathOf_of_ne_nil hSome⟩
  have hBuilt : Built p := by
    obtain ⟨names, hBelow, rfl⟩ := hFinds.exists_descend hNamed
    rw [literalPrefix_behind hNames hSome hOrdinary.plain hTrail, ← foldl_extendPrefix_names hBelow]
    exact (hRoot.foldl_extendPrefix fun s hS =>
      Path.slash_notMem_of_mem_way ((prefix_plainWay x).subset hS)).foldl_extendPrefix
        fun s hS => (solid_names hBelow s hS).2
  obtain ⟨rest, hWay⟩ := prefix_plainWay x
  have hFront := (ReadsAs.of_plain hOrdinary.plain).append (.of_plain (plain_below_plainWay x))
  rw [← hTrail.below_way, ← hWay, Path.below_append, ← List.append_assoc] at hPattern
  obtain ⟨y, hY, hChars⟩ := hFront.goesOn_of_accepts (Path.goesOn_below rest) hPattern hAccepts
  have hSegments : way p.chars = r.map String.toList ++ plainWay x ++ way y := by
    rw [hChars, FileTree.chars_pathOf_of_ne_nil hSome, ← Path.below_append,
      (Path.goesOn_below _).way_append hY, Path.way_below]
    refine List.forall_mem_append.mpr ⟨fun s hS => (solid_names hNames s hS).2, fun s hS => ?_⟩
    exact Path.slash_notMem_of_mem_way ((prefix_plainWay x).subset hS)
  -- the path has no empty segment, as it is built, and all plain segments, as it matches
  rcases hBuilt.way_eq with hSlash | hSolid
  · obtain ⟨name, names, rfl⟩ := List.exists_cons_of_ne_nil hSome
    rw [hSlash, List.map_cons, List.cons_append, List.cons_append] at hSegments
    exact absurd (List.cons.inj hSegments).1.symm (hNames name List.mem_cons_self).ne_nil
  · rw [hSegments] at hSolid
    exact fun s hS => hSolid s (by simp [hS])

end Start
end Project
end ExplicitModules
