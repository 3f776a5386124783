import ExplicitModules.Proofs.FileTree.Relocation

/-!
# Canonical paths

The names on the way to a place that a path leads to can all be looked up again. So the plain path of
such a place leads there too, and what is put behind it is looked up from there, with no links spent on
the way. If a directory has a canonical path, so has an entry in it whose own is not too long.
-/
namespace ExplicitModules
set_option autoImplicit false
open ExplicitModules.Path (segments isTrivial)

theorem Path.mem_of_mem_segments {c : Char} {cs s : List Char} (hS : s ∈ segments cs) (hC : c ∈ s) :
    c ∈ cs := by
  induction cs generalizing s with
  | nil =>
    rw [segments, List.mem_singleton] at hS
    exact hS ▸ hC
  | cons d cs ih =>
    rw [segments] at hS
    split at hS
    · rcases List.mem_cons.mp hS with rfl | hLater
      · cases hC
      · exact List.mem_cons_of_mem d (ih hLater hC)
    · cases hSegments : segments cs with
      | nil => exact absurd hSegments (Path.segments_ne_nil cs)
      | cons first rest =>
        rw [hSegments] at hS ih
        rcases List.mem_cons.mp hS with rfl | hLater
        · rcases List.mem_cons.mp hC with rfl | hFirst
          · exact List.mem_cons_self
          · exact List.mem_cons_of_mem d (ih List.mem_cons_self hFirst)
        · exact List.mem_cons_of_mem d (ih (List.mem_cons_of_mem first hLater) hC)

namespace FileTree

/-- A name that a step can lead to. -/
structure IsStep (name : String) : Prop where
  isName : Path.IsName name
  short : Text.utf8Length name.toList ≤ maxName
  noNul : '\x00' ∉ name.toList

instance (name : String) : Decidable (IsStep name) :=
  decidable_of_iff (Path.IsName name ∧ Text.utf8Length name.toList ≤ maxName ∧ '\x00' ∉ name.toList)
    ⟨fun ⟨hName, hShort, hNul⟩ => ⟨hName, hShort, hNul⟩, fun h => ⟨h.isName, h.short, h.noNul⟩⟩

def linkText : Node → String
  | .link target => target
  | _ => ""

/-- No link holds a NUL, as in every tree of a file system. -/
def NulFree (t : FileTree) : Prop :=
  ∀ entry ∈ t.entries, '\x00' ∉ (linkText entry.2).toList

instance (t : FileTree) : Decidable t.NulFree :=
  inferInstanceAs (Decidable (∀ entry ∈ t.entries, '\x00' ∉ (linkText entry.2).toList))

section Steps

variable {t : FileTree} {follow : Bool} {links : Nat} {current loc names : Location} {name : String}
  {node : Node} {p : Path}

theorem NulFree.target (h : t.NulFree) {target : String} (hNode : t.node? loc = some (.link target)) :
    '\x00' ∉ target.toList := by
  unfold node? at hNode
  split at hNode
  · cases hNode
  · obtain ⟨front, back, hEntries, -⟩ := List.lookup_eq_some_iff.mp hNode
    exact h (loc, .link target) (by simp [hEntries])

theorem isStep_of_stepTo {next : Location} {segment : List Char} {link : Option String}
    (h : t.stepTo current segment = .ok (next, link)) (hCurrent : ∀ name ∈ current, IsStep name)
    (hSegment : '/' ∉ segment ∧ '\x00' ∉ segment) : ∀ name ∈ next, IsStep name := by
  have hNames := isName_of_stepTo h (fun name hName => (hCurrent name hName).isName) hSegment.1
  rcases (stepTo_cases h).2 with ⟨-, rfl, -⟩ | ⟨-, -, rfl, -⟩ | ⟨hTrivial, hUp, rfl, -⟩
  · exact hCurrent
  · exact fun name hName => hCurrent name (List.dropLast_subset current hName)
  · rw [List.forall_mem_append, List.forall_mem_singleton] at hNames ⊢
    refine ⟨hCurrent, hNames.2, ?_, ?_⟩
    · rw [String.toList_ofList]
      refine Nat.le_of_not_lt fun hLong => ?_
      rw [stepTo, if_pos (stepTo_cases h).1, if_neg (by simp [hTrivial]), if_neg hUp, if_pos hLong] at h
      cases h
    · rw [String.toList_ofList]
      exact hSegment.2

theorem NulFree.isStep (h : t.NulFree) (hTrace : t.trace true p = .ok loc) :
    ∀ name ∈ loc, IsStep name := by
  have hNul : '\x00' ∉ p.chars := by
    intro hMem
    rw [trace, if_pos (List.contains_iff_mem.mpr hMem)] at hTrace
    cases hTrace
  have hSegments : ∀ cs : List Char, '\x00' ∉ cs → ∀ s ∈ segments cs, '/' ∉ s ∧ '\x00' ∉ s :=
    fun cs hCs s hS => ⟨Path.slash_notMem_of_mem_segments hS,
      fun hC => hCs (Path.mem_of_mem_segments hS hC)⟩
  exact forall_mem_of_walkTo isStep_of_stepTo (fun hNode => hSegments _ (h.target hNode))
    (walkTo_of_trace hTrace) (List.forall_mem_nil _) (hSegments _ hNul)

theorem stepTo_isStep (h : IsStep name) (hDirectory : t.isDirectoryAt current = true)
    (hNode : t.node? (current ++ [name]) = some node) (hLink : ∀ target, node ≠ .link target) :
    t.stepTo current name.toList = .ok (current ++ [name], none) := by
  rw [stepTo, if_pos hDirectory, if_neg (by simp [h.isName.nontrivial]), if_neg h.isName.notParent,
    if_neg (Nat.not_lt.mpr h.short)]
  dsimp only
  rw [String.ofList_toList, hNode]
  cases node with
  | link target => exact absurd rfl (hLink target)
  | file _ _ => rfl
  | directory _ => rfl

/-- Names are walked one by one, whatever is behind them. -/
theorem walkTo_steps (hSteps : ∀ n ∈ names, IsStep n)
    (hDirectories : ∀ front, front <+: names → t.isDirectoryAt (current ++ front) = true)
    (back : List (List Char)) :
    t.walkTo follow links current (names.map String.toList ++ back) =
      t.walkTo follow links (current ++ names) back := by
  induction names generalizing current with
  | nil => rw [List.map_nil, List.nil_append, List.append_nil]
  | cons name names ih =>
    rw [List.forall_mem_cons] at hSteps
    have hHere : t.isDirectoryAt current = true := by simpa using hDirectories [] List.nil_prefix
    obtain ⟨mode, hNode⟩ := isDirectoryAt_iff.mp (hDirectories [name] (by simp))
    rw [List.map_cons, List.cons_append, walkTo_cons_of_none (stepTo_isStep hSteps.1 hHere hNode nofun),
      ih hSteps.2, List.append_assoc, List.singleton_append]
    intro front hFront
    rw [List.append_assoc]
    exact hDirectories _ (List.cons_prefix_cons.mpr ⟨rfl, hFront⟩)

theorem nul_notMem_pathOf (hSteps : ∀ n ∈ loc, IsStep n) : '\x00' ∉ (pathOf loc).chars := by
  rw [chars_pathOf, List.mem_cons, not_or]
  refine ⟨by decide, fun hMem => ?_⟩
  rcases Path.mem_joinSegments hMem with hSlash | ⟨s, hS, hNul⟩
  · cases hSlash
  · obtain ⟨n, hN, rfl⟩ := List.mem_map.mp hS
    exact (hSteps n hN).noNul hNul

theorem trace_of_chars (hNul : '\x00' ∉ p.chars) (hSome : p.chars ≠ []) :
    t.trace follow p = t.walkTo follow maxLinks [] (segments p.chars) := by
  rw [trace, if_neg (by simpa using hNul), if_neg hSome]

/-- The plain path of an entry in a directory is looked up in that directory. -/
theorem trace_pathOf_concat (hSteps : ∀ n ∈ loc ++ [name], IsStep n) (hReached : t.Reached loc)
    (hDirectory : t.isDirectoryAt loc = true) :
    t.trace follow (pathOf (loc ++ [name])) = t.walkTo follow maxLinks loc [name.toList] := by
  have hRoot : t.stepTo [] [] = .ok ([], none) := rfl
  rw [trace_of_chars (nul_notMem_pathOf hSteps) (by rw [chars_pathOf]; exact List.cons_ne_nil _ _),
    segments_pathOf (fun n hN => (hSteps n hN).isName) (by simp), walkTo_cons_of_none hRoot,
    List.map_append, List.map_singleton]
  refine walkTo_steps (List.forall_mem_append.mp hSteps).1 (fun front hFront => ?_) _
  by_cases hWhole : front = loc
  · rw [List.nil_append, hWhole]
    exact hDirectory
  · exact hReached front hFront hWhole

/-- The plain path of a place that a path has led to leads there. -/
theorem trace_pathOf (hSteps : ∀ n ∈ loc, IsStep n) (hReached : t.Reached loc)
    (hNode : t.node? loc = some node) (hLink : ∀ target, node ≠ .link target) :
    t.trace follow (pathOf loc) = .ok loc := by
  rcases loc.eq_nil_or_concat' with rfl | ⟨front, name, rfl⟩
  · rfl
  · have hDirectory : t.isDirectoryAt front = true := hReached front (List.prefix_append _ _) (by simp)
    have hAbove : t.Reached front := fun above hPrefix hNe =>
      hReached above (hPrefix.trans (List.prefix_append _ _)) fun hEq =>
        hNe (hPrefix.eq_of_length_le (by simp [hEq]))
    have hName := (List.forall_mem_append.mp hSteps).2 name (List.mem_singleton_self name)
    rw [trace_pathOf_concat hSteps hAbove hDirectory,
      walkTo_cons_of_none (stepTo_isStep hName hDirectory hNode hLink), walkTo_nil]

theorem locate_of_short (hShort : Text.utf8Length p.chars ≤ maxPath) :
    t.locate follow p = t.trace follow p :=
  if_neg fun hLong => absurd hLong.1 (Nat.not_lt.mpr hShort)

theorem isDirectory_iff :
    t.isDirectory p = true ↔ ∃ loc, t.locate true p = .ok loc ∧ t.isDirectoryAt loc = true := by
  unfold isDirectory nodeOf?
  cases t.locate true p with
  | error e => exact iff_of_false nofun nofun
  | ok loc =>
    simp only [Except.ok.injEq, exists_eq_left']
    rfl

theorem pathOf_inj {other : Location} (hLoc : ∀ n ∈ loc, Path.IsName n)
    (hOther : ∀ n ∈ other, Path.IsName n) (hSome : loc ≠ []) (hSome' : other ≠ [])
    (h : pathOf loc = pathOf other) : loc = other := by
  have hSegments := congrArg (fun p : Path => segments p.chars) h
  rw [segments_pathOf hLoc hSome, segments_pathOf hOther hSome', List.cons.injEq] at hSegments
  exact List.map_injective_iff.mpr (fun _ _ hText => String.toList_inj.mp hText) hSegments.2

theorem parent?_pathOf (hNames : ∀ n ∈ loc ++ [name], Path.IsName n) :
    (pathOf (loc ++ [name])).parent? = some (pathOf loc) := by
  have hTrim : ∀ names : Location, (∀ n ∈ names, Path.IsName n) →
      Path.trimEnd (names.map String.toList) = names.map String.toList := by
    intro names hAll
    rcases names.eq_nil_or_concat' with rfl | ⟨front, last, rfl⟩
    · rfl
    · have hLast := (hAll last (by simp)).nontrivial
      rw [List.map_append, List.map_singleton, Path.trimEnd_concat, hLast, if_neg Bool.false_ne_true]
  have hAbove := fun n hN => hNames n (List.mem_append_left [name] hN)
  have hSome : (loc ++ [name]).map String.toList ≠ [] := by simp
  have hSegments := Path.segments_joinSegments hSome (Path.slash_notMem_of_mem_names hNames)
  unfold Path.parent?
  rw [chars_pathOf, Path.splitLead]
  dsimp only
  rw [hSegments, hTrim _ hNames, List.map_append, List.map_singleton]
  split
  · rename_i hNil
    exact absurd hNil (by simp)
  · rw [List.dropLast_concat, hTrim _ hAbove, List.singleton_append, ← chars_pathOf, Path.ofChars_chars]

end Steps

section Lengths

variable {t : FileTree} {links : Nat} {current next home : Location} {segment : List Char}
  {front rest tail : List (List Char)} {name : String}

@[simp] theorem overruns_nil (t : FileTree) (links : Nat) (current : Location) :
    t.overruns links current [] = false := by
  cases links <;> rfl

theorem overruns_cons_of_none (hStep : t.stepTo current segment = .ok (next, none)) :
    t.overruns links current (segment :: rest) =
      (t.isOverlong current segment rest || t.overruns links next rest) := by
  cases links <;> simp only [overruns, overrunsWith, hStep]

theorem overruns_cons_succ {target : String}
    (hStep : t.stepTo current segment = .ok (next, some target)) :
    t.overruns (links + 1) current (segment :: rest) =
      (t.isOverlong current segment rest ||
        t.overruns links (linkStart current target) (segments target.toList ++ rest)) := by
  simp only [overruns, overrunsWith, hStep]

/-- A name that is the last on a way is overlong if its canonical path is. -/
theorem overruns_singleton (hName : Path.IsName name)
    (hStep : t.stepTo current name.toList = .ok (next, none)) :
    t.overruns links current [name.toList] =
      decide (maxPath < Text.utf8Length (pathOf (current ++ [name])).chars) := by
  rw [overruns_cons_of_none hStep, overruns_nil, Bool.or_false, isOverlong]
  rw [if_neg (by simp [hName.nontrivial, hName.notParent]), hStep, String.ofList_toList]
  rfl

theorem eq_of_stepTo_nil {link : Option String} (h : t.stepTo current [] = .ok (next, link)) :
    next = current ∧ link = none := by
  rcases (stepTo_cases h).2 with ⟨-, hSame⟩ | ⟨hNamed, -⟩ | ⟨hNamed, -⟩
  · exact hSame
  · cases hNamed
  · cases hNamed

/-- A name asks for no more in front of it than slashes do. -/
theorem asksForDirectory_of_concat (hName : Path.IsName name) (tail : List (List Char))
    (h : asksForDirectory (front ++ [name.toList]) = true) :
    asksForDirectory (front ++ tail) = true := by
  unfold asksForDirectory at h ⊢
  rw [List.dropWhile_append] at h ⊢
  cases hDrop : front.dropWhile isTrivial with
  | nil =>
    rw [hDrop, List.isEmpty_nil, if_pos rfl,
      List.dropWhile_cons_of_neg (by rw [hName.nontrivial]; exact Bool.false_ne_true)] at h
    exact absurd (eq_of_beq h) hName.notParent
  | cons first rest =>
    rw [hDrop] at h
    exact h

theorem isOverlong_concat (hName : Path.IsName name) (tail : List (List Char))
    (h : t.isOverlong current segment (rest ++ tail) = false) :
    t.isOverlong current segment (rest ++ [name.toList]) = false := by
  unfold isOverlong at h ⊢
  dsimp only at h ⊢
  split
  · rfl
  · rename_i hNamed
    rw [if_neg hNamed] at h
    split at h
    · exact h
    · rw [decide_eq_false_iff_not] at h ⊢
      refine fun hLong => h (Nat.lt_of_lt_of_le hLong (Nat.add_le_add_left ?_ _))
      split
      · rename_i hAsks
        rw [if_pos (asksForDirectory_of_concat hName tail hAsks)]
      · exact Nat.zero_le _

/-- Behind a directory that no overlong entry leads to, a name leads to none but its own. -/
theorem overruns_concat (hName : Path.IsName name) (hTail : tail = [] ∨ tail = [[]])
    (hEntry : ∀ links, t.overruns links home [name.toList] = false)
    (hWalk : t.walkTo true links current (front ++ tail) = .ok home)
    (hFront : t.overruns links current (front ++ tail) = false) :
    t.overruns links current (front ++ [name.toList]) = false := by
  induction links, current, front using walk_induction with
  | nil links current =>
    have hHome : current = home := by
      rcases hTail with rfl | rfl
      · exact Except.ok.inj ((walkTo_nil t true links current).symm.trans hWalk)
      · rcases walkTo_cons_eq_ok hWalk with ⟨next, hStep, hEnd⟩ | ⟨_, _, _, -, hStep, -⟩
        · rw [(eq_of_stepTo_nil hStep).1, walkTo_nil] at hEnd
          exact Except.ok.inj hEnd
        · cases (eq_of_stepTo_nil hStep).2
    rw [hHome]
    exact hEntry links
  | cons links current segment rest ihRest ihLink =>
    rw [List.cons_append] at hWalk hFront ⊢
    rcases walkTo_cons_eq_ok hWalk with ⟨next, hStep, hWalk⟩ | ⟨next, target, links, rfl, hStep, hWalk⟩
    · rw [overruns_cons_of_none hStep, Bool.or_eq_false_iff] at hFront ⊢
      exact ⟨isOverlong_concat hName tail hFront.1, ihRest next hWalk hFront.2⟩
    · rw [overruns_cons_succ hStep, Bool.or_eq_false_iff] at hFront ⊢
      rw [← List.append_assoc] at hWalk hFront ⊢
      exact ⟨isOverlong_concat hName tail hFront.1,
        ihLink links (Nat.lt_succ_self links) _ _ hWalk hFront.2⟩

theorem overruns_of_resolved {p : Path} (h : t.resolved p = .ok home) :
    t.overruns maxLinks [] (segments p.chars) = false := by
  have hTrace := trace_of_resolved h
  unfold resolved at h
  split at h
  · cases h
  · rename_i hShort
    refine Bool.eq_false_iff.mpr fun hLong => hShort ⟨?_, hLong⟩
    -- no path with a NUL has led anywhere
    unfold trace at hTrace
    split at hTrace
    · cases hTrace
    · rename_i hNul
      simpa using hNul

/-- An entry of a directory with a canonical path is found, unless its own is too long. -/
theorem resolved_joinText {p : Path} (hName : Path.IsName name) (hDirectory : t.resolved p = .ok home)
    (hEntry : ∀ links, t.overruns links home [name.toList] = false) :
    t.resolved (p.joinText name) = t.trace true (p.joinText name) := by
  have hFront := overruns_of_resolved hDirectory
  have hWalk := walkTo_of_trace (trace_of_resolved hDirectory)
  have hFits : t.overruns maxLinks [] (segments (p.joinText name).chars) = false := by
    rcases hName.segments_joinText (p := p) with hSegments | ⟨front, hSplit, hSegments⟩
    · rw [hSegments]
      rw [← List.append_nil (segments p.chars)] at hFront hWalk
      exact overruns_concat hName (Or.inl rfl) hEntry hWalk hFront
    · rw [hSegments]
      rw [hSplit] at hFront hWalk
      exact overruns_concat hName (Or.inr rfl) hEntry hWalk hFront
  rw [resolved, if_neg fun hLong => Bool.eq_false_iff.mp hFits hLong.2]

end Lengths

end FileTree
end ExplicitModules
