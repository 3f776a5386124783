import ExplicitModules.Proofs.FileTree.Walking

/-!
# Plain spellings

The path of a location is its names, each behind a slash. What is put behind such a path, what is above
it and what its components are can be read off the names.
-/
namespace ExplicitModules
set_option autoImplicit false

namespace Path

variable {segs : List (List Char)}

theorem joinSegments_append {front back : List (List Char)} (hFront : front ≠ []) (hBack : back ≠ []) :
    joinSegments (front ++ back) = joinSegments front ++ '/' :: joinSegments back := by
  induction front with
  | nil => exact absurd rfl hFront
  | cons s front ih =>
    cases front with
    | nil =>
      obtain ⟨first, back, rfl⟩ := List.exists_cons_of_ne_nil hBack
      rfl
    | cons next front =>
      rw [List.cons_append, List.cons_append, joinSegments, ← List.cons_append,
        ih (List.cons_ne_nil next front), joinSegments, List.append_assoc, List.cons_append]

theorem mem_joinSegments {c : Char} (h : c ∈ joinSegments segs) : c = '/' ∨ ∃ s ∈ segs, c ∈ s := by
  induction segs with
  | nil => cases h
  | cons s segs ih =>
    cases segs with
    | nil => exact Or.inr ⟨s, List.mem_cons_self, h⟩
    | cons next segs =>
      rw [joinSegments, List.mem_append, List.mem_cons] at h
      rcases h with hHere | hSlash | hLater
      · exact Or.inr ⟨s, List.mem_cons_self, hHere⟩
      · exact Or.inl hSlash
      · rcases ih hLater with hSlash | ⟨later, hMem, hC⟩
        · exact Or.inl hSlash
        · exact Or.inr ⟨later, List.mem_cons_of_mem s hMem, hC⟩

theorem segments_joinSegments (hSome : segs ≠ []) (hPlain : ∀ s ∈ segs, '/' ∉ s) :
    segments (joinSegments segs) = segs := by
  induction segs with
  | nil => exact absurd rfl hSome
  | cons s segs ih =>
    rw [List.forall_mem_cons] at hPlain
    cases segs with
    | nil => exact segments_of_no_slash hPlain.1
    | cons next segs =>
      rw [joinSegments, segments_append_slash, segments_of_no_slash hPlain.1,
        ih (List.cons_ne_nil next segs) hPlain.2, List.singleton_append]

def below (segs : List (List Char)) : List Char :=
  segs.flatMap ('/' :: ·)

theorem below_cons (s : List Char) (segs : List (List Char)) :
    below (s :: segs) = '/' :: (s ++ below segs) :=
  List.flatMap_cons

theorem below_append (front back : List (List Char)) : below (front ++ back) = below front ++ below back :=
  List.flatMap_append

theorem below_eq (hSome : segs ≠ []) : below segs = '/' :: joinSegments segs := by
  induction segs with
  | nil => exact absurd rfl hSome
  | cons s segs ih =>
    cases segs with
    | nil => rw [below_cons, joinSegments, below, List.flatMap_nil, List.append_nil]
    | cons next segs => rw [below_cons, ih (List.cons_ne_nil next segs), joinSegments]

theorem slash_notMem_of_mem_names {names : List String} (hNames : ∀ n ∈ names, IsName n) :
    ∀ s ∈ names.map String.toList, '/' ∉ s := by
  intro s hS
  obtain ⟨n, hN, rfl⟩ := List.mem_map.mp hS
  exact (hNames n hN).plain

theorem exists_chars_of_isAbsolute {p : Path} (h : p.isAbsolute = true) :
    ∃ rest, p.chars = '/' :: rest :=
  List.head?_eq_some_iff.mp (by simpa [isAbsolute] using h)

theorem isAbsolute_join {p : Path} (h : p.isAbsolute = true) (q : Path) :
    (p.join q).isAbsolute = true := by
  unfold join
  split
  · assumption
  · obtain ⟨rest, hChars⟩ := exists_chars_of_isAbsolute h
    split <;> simp [isAbsolute, hChars]

theorem isAbsolute_of_plain {s : List Char} (h : '/' ∉ s) : (ofChars s).isAbsolute = false := by
  rw [isAbsolute, chars_ofChars, beq_eq_false_iff_ne]
  intro hHead
  exact h (List.mem_of_mem_head? hHead)

theorem trimEnd_concat (segs : List (List Char)) (s : List Char) :
    trimEnd (segs ++ [s]) = if isTrivial s then trimEnd segs else segs ++ [s] := by
  rw [trimEnd, List.reverse_append, List.reverse_singleton, List.singleton_append,
    List.dropWhile_cons]
  split
  · rfl
  · simp

def slashed (p : Path) : String :=
  if p.chars.getLast? = some '/' then p.text else p.text ++ "/"

theorem joinText_eq_slashed {p : Path} {text : String} (hSome : p.chars ≠ [])
    (hRelative : isAbsolute ⟨text⟩ = false) : p.joinText text = ⟨p.slashed ++ text⟩ := by
  rw [joinText, join, if_neg (by simp [hRelative])]
  unfold slashed
  by_cases hSlash : p.chars.getLast? = some '/'
  · rw [if_pos (Or.inr hSlash), if_pos hSlash]
    exact congrArg Path.mk (String.toList_injective (by simp [chars]))
  · rw [if_neg (not_or.mpr ⟨hSome, hSlash⟩), if_neg hSlash]
    exact congrArg Path.mk (String.toList_injective (by simp [chars]))

end Path

namespace FileTree

section Spelling

variable {loc names : Location} {name : String}

theorem chars_pathOf_of_ne_nil (hSome : loc ≠ []) :
    (pathOf loc).chars = Path.below (loc.map String.toList) := by
  rw [pathOf, if_neg hSome, Path.chars, String.toList_join, List.flatMap_map, Path.below,
    List.flatMap_map]
  congr 1
  funext n
  exact String.toList_append

theorem chars_pathOf (loc : Location) :
    (pathOf loc).chars = '/' :: Path.joinSegments (loc.map String.toList) := by
  by_cases hRoot : loc = []
  · rw [hRoot]
    rfl
  · rw [chars_pathOf_of_ne_nil hRoot, Path.below_eq (by simpa using hRoot)]

theorem isAbsolute_pathOf (loc : Location) : (pathOf loc).isAbsolute = true := by
  rw [Path.isAbsolute, chars_pathOf]
  rfl

theorem segments_pathOf (hNames : ∀ n ∈ loc, Path.IsName n) (hSome : loc ≠ []) :
    Path.segments (pathOf loc).chars = [] :: loc.map String.toList := by
  rw [chars_pathOf, ← List.nil_append ('/' :: _), Path.segments_append_slash,
    Path.segments_joinSegments (by simpa using hSome) (Path.slash_notMem_of_mem_names hNames)]
  rfl

theorem pathOf_concat (hSome : loc ≠ []) (name : String) :
    (pathOf (loc ++ [name])).chars = (pathOf loc).chars ++ '/' :: name.toList := by
  rw [chars_pathOf, chars_pathOf, List.map_append, List.map_singleton,
    Path.joinSegments_append (by simpa using hSome) (List.cons_ne_nil _ _)]
  rfl

theorem endsInName_pathOf (hNames : ∀ n ∈ loc, Path.IsName n) (hSome : loc ≠ []) :
    (pathOf loc).EndsInName := by
  refine ⟨by rw [chars_pathOf]; exact List.cons_ne_nil _ _, fun hSlash => ?_⟩
  obtain ⟨front, last, rfl⟩ := (List.eq_nil_or_concat' loc).resolve_left hSome
  have hLast := hNames last (by simp)
  obtain ⟨start, c, hEnd⟩ := (List.eq_nil_or_concat' last.toList).resolve_left hLast.ne_nil
  have hChars : ∃ more, (pathOf (front ++ [last])).chars = more ++ [c] := by
    by_cases hFront : front = []
    · subst hFront
      exact ⟨'/' :: start, by rw [chars_pathOf]; simp [Path.joinSegments, hEnd]⟩
    · exact ⟨(pathOf front).chars ++ '/' :: start, by rw [pathOf_concat hFront, hEnd]; simp⟩
  obtain ⟨more, hChars⟩ := hChars
  rw [hChars, List.getLast?_concat] at hSlash
  exact hLast.plain (by rw [hEnd, Option.some.inj hSlash]; simp)

theorem joinText_pathOf (hNames : ∀ n ∈ loc, Path.IsName n) (hName : Path.IsName name) :
    (pathOf loc).joinText name = pathOf (loc ++ [name]) := by
  have hChars : ((pathOf loc).joinText name).chars = (pathOf (loc ++ [name])).chars := by
    by_cases hRoot : loc = []
    · subst hRoot
      rw [chars_pathOf, Path.joinText, Path.join, hName.relative]
      simp [pathOf, Path.chars, Path.ofChars, Path.joinSegments]
    · rw [pathOf_concat hRoot, (endsInName_pathOf hNames hRoot).chars_joinText hName]
  rw [← Path.ofChars_chars ((pathOf loc).joinText name), hChars, Path.ofChars_chars]

/-- What names below a location lead to is shown under the path of its own location. -/
theorem descend_pathOf (hNames : ∀ n ∈ loc ++ names, Path.IsName n) :
    (pathOf loc).descend names = pathOf (loc ++ names) := by
  induction names generalizing loc with
  | nil => rw [Path.descend_nil, List.append_nil]
  | cons name names ih =>
    have hSplit : loc ++ name :: names = loc ++ [name] ++ names := by simp
    rw [hSplit] at hNames ⊢
    have hHere := List.forall_mem_append.mp (List.forall_mem_append.mp hNames).1
    rw [Path.descend_cons, joinText_pathOf hHere.1 (hHere.2 name (List.mem_singleton_self name)),
      ih hNames]

end Spelling
end FileTree
end ExplicitModules
