import ExplicitModules.Proofs.FileTree.Arrival
import ExplicitModules.Proofs.FileTree.Relocation
import ExplicitModules.Proofs.Project.Anchoring
import ExplicitModules.Proofs.Project.Exclusion

/-!
# A project elsewhere

Which files belong to a project does not depend on where its directory is, as long as the path of that
directory reads the same in a pattern. Two directories that hold the same then have the same sources,
and if a listed file is missing, it is the same one in both. Only the length of the path tells them
apart: a walk can come to a directory that cannot be opened below the one and not below the other.
-/
namespace ExplicitModules
set_option autoImplicit false
open FileTree (pathOf Fits)
open ExplicitModules.Path (segments moving way below GoesOn Beside)

namespace Project
open Glob (Pattern ReadsAs)

/-- A directory whose plain path leads to it and reads the same in a pattern. -/
structure Home (t : FileTree) (r : Location) : Prop where
  named : t.Named
  spelled : t.Spelled r
  ordinary : Ordinary (pathOf r)

/-- What a setting names lies below the directory, `r` or `s`, that it belongs to, and is not too far
down to be looked up. -/
structure Inside (r s : Location) (text : String) : Prop where
  relative : Path.isAbsolute ⟨text⟩ = false
  inner : ['.', '.'] ∉ segments text.toList
  room : Text.utf8Length (pathOf r).chars + 1 + Text.utf8Length text.toList ≤ FileTree.maxPath
  room' : Text.utf8Length (pathOf s).chars + 1 + Text.utf8Length text.toList ≤ FileTree.maxPath

instance (r s : Location) (text : String) : Decidable (Inside r s text) :=
  decidable_of_iff (Path.isAbsolute ⟨text⟩ = false ∧ ['.', '.'] ∉ segments text.toList ∧
      Text.utf8Length (pathOf r).chars + 1 + Text.utf8Length text.toList ≤ FileTree.maxPath ∧
      Text.utf8Length (pathOf s).chars + 1 + Text.utf8Length text.toList ≤ FileTree.maxPath)
    ⟨fun ⟨hRelative, hInner, hRoom, hRoom'⟩ => ⟨hRelative, hInner, hRoom, hRoom'⟩,
      fun h => ⟨h.relative, h.inner, h.room, h.room'⟩⟩

theorem Inside.symm {r s : Location} {text : String} (h : Inside r s text) : Inside s r text :=
  ⟨h.relative, h.inner, h.room', h.room⟩

section Fitting

variable {r s : Location} {text : String}

theorem Inside.fits_file (h : Inside r s text) : Fits r s ('/' :: text.toList) := by
  have hSlash : Char.utf8Size '/' = 1 := rfl
  have hRoom := h.room
  have hRoom' := h.room'
  refine ⟨Or.inr ⟨_, rfl⟩, h.inner, ?_, ?_⟩
  · rw [Text.utf8Length_append, Text.utf8Length_cons]
    omega
  · rw [Text.utf8Length_append, Text.utf8Length_cons]
    omega

theorem Inside.fits_below (h : Inside r s text) {front : List (List Char)}
    (hFront : front <+: way (trail text)) : Fits r s (below front) := by
  have hWay : way (below front) = front :=
    Path.way_below fun s hS => Path.slash_notMem_of_mem_way (hFront.subset hS)
  have hLength : Text.utf8Length (below front) ≤ 1 + Text.utf8Length text.toList := by
    refine Nat.le_trans ?_ (utf8Length_trail_le text)
    obtain ⟨back, hBack⟩ := hFront
    rw [← (goesOn_trail text).below_way, ← hBack, Path.below_append, Text.utf8Length_append]
    exact Nat.le_add_right _ _
  have hRoom := h.room
  have hRoom' := h.room'
  refine ⟨Path.goesOn_below front, fun hUp => h.inner ?_, ?_, ?_⟩
  · rw [hWay] at hUp
    rw [← Path.parent_mem_moving_iff, ← moving_trail, (goesOn_trail text).moving_eq]
    exact List.mem_filter.mpr ⟨hFront.subset hUp, rfl⟩
  · rw [Text.utf8Length_append]
    omega
  · rw [Text.utf8Length_append]
    omega

theorem Inside.fits_trail (h : Inside r s text) : Fits r s (trail text) := by
  have hFits := h.fits_below List.prefix_rfl
  rwa [(goesOn_trail text).below_way] at hFits

end Fitting

section Exclusions

variable {t u : FileTree} {p q root root' : Path} {settings settings' : Settings}
  {tails : List (List Char)}

/-- Exclusions that say the same about what is behind `p` and behind `q` hold against the same. -/
theorem isExcluded_behind (hP : ∀ c ∈ p.chars, Glob.isWildcard c = false)
    (hQ : ∀ c ∈ q.chars, Glob.isWildcard c = false) (hTails : ∀ x ∈ tails, GoesOn x)
    (hTexts : exclusionTexts t root settings = tails.map (p.chars ++ ·))
    (hTexts' : exclusionTexts u root' settings' = tails.map (q.chars ++ ·)) (y : List Char)
    (h : isExcluded (exclusions t root settings) (p.behind y) = true) :
    isExcluded (exclusions u root' settings') (q.behind y) = true := by
  obtain ⟨pattern, hPattern, hAccepts⟩ := isExcluded_iff.mp h
  obtain ⟨text, hText, hRead⟩ := mem_exclusions_iff.mp hPattern
  rw [hTexts] at hText
  obtain ⟨x, hX, rfl⟩ := List.mem_map.mp hText
  have hMoved : ∀ more, GoesOn more → Pattern.ofText? (p.chars ++ more) = some pattern →
      ∃ moved, Pattern.ofText? (q.chars ++ more) = some moved ∧
        moved.accepts (q.behind y).chars = true := by
    intro more hMore hRead
    obtain ⟨moved, hMoved, hSame⟩ :=
      (ReadsAs.of_plain hP).exists_moved (.of_plain hQ) hMore hRead
    refine ⟨moved, hMoved, ?_⟩
    rw [Path.chars_behind, hSame, ← Path.chars_behind]
    exact hAccepts
  have hMem : q.chars ++ x ∈ exclusionTexts u root' settings' :=
    hTexts' ▸ List.mem_map_of_mem hX
  rw [List.append_assoc] at hRead
  rcases hRead with hRead | hRead
  · obtain ⟨moved, hMoved, hAccepts⟩ := hMoved x (hTails x hX) hRead
    exact isExcluded_iff.mpr ⟨moved, mem_exclusions_iff.mpr ⟨_, hMem, Or.inl hMoved⟩, hAccepts⟩
  · obtain ⟨moved, hMoved, hAccepts⟩ :=
      hMoved _ ((hTails x hX).concat goesOn_everythingBelow) hRead
    rw [← List.append_assoc] at hMoved
    exact isExcluded_iff.mpr ⟨moved, mem_exclusions_iff.mpr ⟨_, hMem, Or.inr hMoved⟩, hAccepts⟩

end Exclusions

section Home

variable {t : FileTree} {r : Location} (hR : Home t r) (hSome : r ≠ [])
include hR hSome

theorem Home.endsInName : (pathOf r).EndsInName :=
  FileTree.endsInName_pathOf hR.spelled.names hSome

/-- The walk for a pattern starts behind the directory. -/
theorem Home.literalPrefix_eq {pattern : String} (hSolid : Solid (plainWay (trail pattern))) :
    literalPrefix (absolutePattern t (pathOf r) pattern) =
      (pathOf r).behind (below (plainWay (trail pattern))) := by
  rw [hR.ordinary.absolutePattern_eq, literalPrefix_behind hR.spelled.names hSome hR.ordinary.plain
    (goesOn_wholeTrail t (pathOf r) pattern), plainWay_wholeTrail]
  exact (foldl_extendPrefix_behind (hR.endsInName hSome) hSolid).1

/-- A pattern selects no path in two spellings. -/
theorem Home.eq_of_mem_foundFiles {allowJs : Bool} {excluded : List Pattern} {pattern : String}
    {p q : Path}
    (hP : p ∈ foundFiles t allowJs excluded (pathOf r) pattern)
    (hQ : q ∈ foundFiles t allowJs excluded (pathOf r) pattern)
    (hSame : p.components = q.components) : p = q := by
  have hSolid := solid_of_mem_foundFiles hR.named hR.spelled.names hSome hR.ordinary hP
  have hEnd := (foldl_extendPrefix_behind (hR.endsInName hSome) hSolid).2
  have hDescend : ∀ p ∈ foundFiles t allowJs excluded (pathOf r) pattern,
      ∃ names, (∀ n ∈ names, Path.IsName n) ∧
        p = ((pathOf r).behind (below (plainWay (trail pattern)))).descend names := by
    intro p hMem
    obtain ⟨compiled, -, -, hFinds, -⟩ := finds_of_mem_foundFiles hMem
    rw [hR.literalPrefix_eq hSome hSolid] at hFinds
    exact hFinds.exists_descend hR.named
  obtain ⟨names, hNames, rfl⟩ := hDescend p hP
  obtain ⟨names', hNames', rfl⟩ := hDescend q hQ
  have hRoot := Path.isAbsolute_behind (FileTree.isAbsolute_pathOf r) (below (plainWay (trail pattern)))
  rw [components_descend hRoot hEnd hNames, components_descend hRoot hEnd hNames',
    List.append_right_inj, List.map_inj_right fun m n => Path.Component.name.inj] at hSame
  rw [hSame]

end Home

section Moved

variable {t u : FileTree} {r s : Location} (h : t.Relocation u r s)
include h

theorem keptWay_moved {excluded excluded' : List Pattern} {z : Location} {p q : Path}
    {dirs : List String} (hExcluded : ∀ names, (∀ n ∈ names, Path.IsName n) →
      isExcluded excluded (p.descend names) = isExcluded excluded' (q.descend names))
    (hNames : ∀ n ∈ dirs, Path.IsName n) (hWay : t.KeptWay (isKept excluded) (r ++ z) p dirs) :
    u.KeptWay (isKept excluded') (s ++ z) q dirs := by
  refine FileTree.keptWay_iff.mpr fun front dir hFront => ?_
  obtain ⟨mode, hNode, hKept⟩ := FileTree.keptWay_iff.mp hWay front dir hFront
  refine ⟨mode, ?_, ?_⟩
  · rw [List.append_assoc, List.append_assoc] at hNode ⊢
    rw [← h.same _ (by simp)]
    exact hNode
  · rw [isKept, hExcluded _ fun n hN => hNames n (hFront.subset hN)] at hKept
    exact hKept

variable (hR : Home t r) (hS : Home u s)
include hR hS

theorem wholeTrail_eq {pattern : String} (hIn : Inside r s pattern) :
    wholeTrail t (pathOf r) pattern = wholeTrail u (pathOf s) pattern := by
  rw [wholeTrail, wholeTrail, h.isDirectory_eq hR.spelled hS.spelled hIn.fits_trail]

/-- What a walk finds it finds elsewhere too, and never at the directory itself. -/
theorem finds_moved {excluded excluded' : List Pattern} {ws : List (List Char)} {p : Path}
    (hExcluded : ∀ y, isExcluded excluded ((pathOf r).behind y) =
      isExcluded excluded' ((pathOf s).behind y))
    (hSolid : Solid ws) (hFits : Fits r s (below ws))
    (hFinds : Finds t excluded ((pathOf r).behind (below ws)) p) :
    ∃ y, GoesOn y ∧ moving y ≠ [] ∧ p = (pathOf r).behind y ∧
      Finds u excluded' ((pathOf s).behind (below ws)) ((pathOf s).behind y) := by
  have hEnd := (foldl_extendPrefix_behind (hR.endsInName h.source_ne_nil) hSolid).2
  have hEnd' := (foldl_extendPrefix_behind (hS.endsInName h.target_ne_nil) hSolid).2
  have hSame : ∀ names, (∀ n ∈ names, Path.IsName n) →
      isExcluded excluded (((pathOf r).behind (below ws)).descend names) =
        isExcluded excluded' (((pathOf s).behind (below ws)).descend names) := by
    intro names hNames
    rw [descend_behind hEnd hNames, descend_behind hEnd' hNames, hExcluded]
  cases hFinds with
  | start hLoc hFile =>
    -- segments that name nothing lead to the directory itself, which is no file
    obtain ⟨outcome, hT, hU⟩ := h.locate hR.spelled hS.spelled hFits false
    refine ⟨below ws, hFits.goesOn, fun hTrivial => ?_, rfl, ?_⟩
    · have hHere := hR.spelled.eq_of_trivial h.source_ne_nil h.source hFits hTrivial hLoc
      rw [hHere] at hFile
      have hNot := FileTree.isDirectoryAt_of_isFileAt hFile
      rw [h.source] at hNot
      cases hNot
    · rw [hLoc] at hT
      cases outcome with
      | error e => cases hT
      | ok y =>
        obtain rfl := Except.ok.inj hT
        exact .start hU (by rw [← h.isFileAt_eq y]; exact hFile)
  | @below start dirs name hStart hDirectory hWay hFile hOpen =>
    obtain ⟨outcome, hT, hU⟩ := h.locate hR.spelled hS.spelled hFits true
    rw [hStart] at hT
    cases outcome with
    | error e => cases hT
    | ok z =>
      obtain rfl := Except.ok.inj hT
      have hNames := hR.named.isName_of_isFileAt hFile
      refine ⟨_, hFits.goesOn.concat (Path.goesOn_below _), ?_, descend_behind hEnd hNames, ?_⟩
      · rw [(Path.goesOn_below _).moving_append, Path.moving_names hNames]
        simp
      · rw [← descend_behind hEnd' hNames]
        refine .below hU (by rw [← h.isDirectoryAt_eq z]; exact hDirectory)
          (keptWay_moved h hSame (fun n hN => hNames n (List.mem_append_left _ hN)) hWay) ?_ ?_
        · rw [List.append_assoc, ← h.isFileAt_eq, ← List.append_assoc]
          exact hFile
        · rw [← hSame _ hNames]
          exact hOpen

theorem mem_foundFiles_moved {allowJs : Bool} {excluded excluded' : List Pattern} {pattern : String}
    (hIn : Inside r s pattern) (hExcluded : ∀ y, isExcluded excluded ((pathOf r).behind y) =
      isExcluded excluded' ((pathOf s).behind y)) {p : Path}
    (hMem : p ∈ foundFiles t allowJs excluded (pathOf r) pattern) :
    ∃ q ∈ foundFiles u allowJs excluded' (pathOf s) pattern, Beside (pathOf r) (pathOf s) p q := by
  have hSolid := solid_of_mem_foundFiles hR.named hR.spelled.names h.source_ne_nil hR.ordinary hMem
  have hFits := hIn.fits_below (prefix_plainWay (trail pattern))
  have hTrail := goesOn_wholeTrail t (pathOf r) pattern
  have hRoot := hR.literalPrefix_eq h.source_ne_nil hSolid
  have hRoot' := hS.literalPrefix_eq h.target_ne_nil hSolid
  have hText' := hS.ordinary.absolutePattern_eq u pattern
  rw [← wholeTrail_eq h hR hS hIn] at hText'
  obtain ⟨compiled, hPattern, hPresent, hFinds, hExtension, hAccepts⟩ := finds_of_mem_foundFiles hMem
  rw [hR.ordinary.absolutePattern_eq] at hPattern
  rw [hRoot] at hPresent hFinds
  obtain ⟨moved, hMoved, hSame⟩ := (ReadsAs.of_plain hR.ordinary.plain).exists_moved
    (.of_plain hS.ordinary.plain) hTrail hPattern
  obtain ⟨y, hY, hMoving, rfl, hFound⟩ := finds_moved h hR hS hExcluded hSolid hFits hFinds
  rw [← hText'] at hMoved
  refine ⟨(pathOf s).behind y, (mem_foundFiles_iff hMoved).mpr ⟨?_, ?_, ?_, ?_⟩, y, hY, rfl, rfl⟩
  · rw [hRoot', ← h.isPresent_eq hR.spelled hS.spelled hFits]
    exact hPresent
  · rw [hRoot']
    exact hFound
  · rw [hasSourceExtension,
      Path.extension?_behind (FileTree.isAbsolute_pathOf s) (FileTree.isAbsolute_pathOf r) hY hMoving]
    exact hExtension
  · rw [Path.chars_behind, hSame, ← Path.chars_behind]
    exact hAccepts

end Moved

def patternsOf (config : TsConfig) : List String :=
  config.files.getD [] ++ config.includes.getD ["**/*"] ++ config.excludes.getD packageDirectories

/-- The config picks the same files, in the same order, behind `r` and behind `s`, or fails because the
same listed file is missing in both. -/
def PicksAlike (t u : FileTree) (r s : Location) (config : TsConfig) : Prop :=
  (∃ file, collectFiles t (pathOf r) (.ofConfig (pathOf r) config) =
        .error (.listedFileMissing ((pathOf r).joinText file)) ∧
      collectFiles u (pathOf s) (.ofConfig (pathOf s) config) =
        .error (.listedFileMissing ((pathOf s).joinText file))) ∨
    ∃ tails : List (List Char), (∀ x ∈ tails, GoesOn x) ∧
      collectFiles t (pathOf r) (.ofConfig (pathOf r) config) = .ok (tails.map (pathOf r).behind) ∧
      collectFiles u (pathOf s) (.ofConfig (pathOf s) config) = .ok (tails.map (pathOf s).behind)

theorem listedPaths_ofConfig (base : Path) (config : TsConfig) :
    listedPaths (.ofConfig base config) = (config.files.getD []).map base.joinText := by
  unfold listedPaths Settings.ofConfig
  cases config.files with
  | none => rfl
  | some files => rfl

theorem exists_includesInForce (config : TsConfig) : ∃ patterns : List String,
    (∀ pattern ∈ patterns, pattern ∈ patternsOf config) ∧
      ∀ base, includesInForce base (.ofConfig base config) = ⟨base, patterns⟩ := by
  unfold includesInForce Settings.ofConfig patternsOf
  cases config.includes with
  | some includes => exact ⟨includes, fun pattern hMem => by simp [hMem], fun base => rfl⟩
  | none =>
    cases config.files with
    | some files => exact ⟨[], nofun, fun base => rfl⟩
    | none => exact ⟨["**/*"], fun pattern hMem => by simp [List.mem_singleton.mp hMem], fun base => rfl⟩

section Configs

variable {t u : FileTree} {r s : Location} (h : t.Relocation u r s) (hR : Home t r) (hS : Home u s)
  {config : TsConfig} (hIn : ∀ text ∈ patternsOf config, Inside r s text)
  (hOut : ∀ out, config.compilerOptions.outDir = some out → Path.isAbsolute ⟨out⟩ = false)
include h hR hS hIn hOut

theorem exists_exclusionTexts : ∃ tails : List (List Char), (∀ x ∈ tails, GoesOn x) ∧
    exclusionTexts t (pathOf r) (.ofConfig (pathOf r) config) = tails.map ((pathOf r).chars ++ ·) ∧
    exclusionTexts u (pathOf s) (.ofConfig (pathOf s) config) = tails.map ((pathOf s).chars ++ ·) := by
  have hTexts : ∀ patterns : List String, (∀ pattern ∈ patterns, Inside r s pattern) →
      patterns.map (absolutePattern t (pathOf r)) =
          (patterns.map (wholeTrail t (pathOf r))).map ((pathOf r).chars ++ ·) ∧
        patterns.map (absolutePattern u (pathOf s)) =
          (patterns.map (wholeTrail t (pathOf r))).map ((pathOf s).chars ++ ·) := by
    intro patterns hPatterns
    rw [List.map_map, List.map_map]
    constructor
    · exact List.map_congr_left fun pattern _ => hR.ordinary.absolutePattern_eq t pattern
    · refine List.map_congr_left fun pattern hPattern => ?_
      rw [hS.ordinary.absolutePattern_eq, ← wholeTrail_eq h hR hS (hPatterns pattern hPattern)]
      rfl
  have hTrails : ∀ patterns : List String, ∀ x ∈ patterns.map (wholeTrail t (pathOf r)), GoesOn x := by
    intro patterns x hX
    obtain ⟨pattern, -, rfl⟩ := List.mem_map.mp hX
    exact goesOn_wholeTrail t (pathOf r) pattern
  unfold exclusionTexts Settings.ofConfig
  cases hExcludes : config.excludes with
  | some excludes =>
    obtain ⟨hT, hU⟩ := hTexts excludes fun pattern hMem =>
      hIn pattern (by simp [patternsOf, hExcludes, hMem])
    exact ⟨_, hTrails excludes, hT, hU⟩
  | none =>
    obtain ⟨hT, hU⟩ := hTexts packageDirectories fun pattern hMem =>
      hIn pattern (by simp [patternsOf, hExcludes, hMem])
    dsimp only [Option.map_none]
    rw [hT, hU]
    cases hSet : config.compilerOptions.outDir with
    | none =>
      refine ⟨_, hTrails packageDirectories, ?_, ?_⟩
      · exact List.append_nil _
      · exact List.append_nil _
    | some out =>
      have hEnd := hR.endsInName h.source_ne_nil
      have hEnd' := hS.endsInName h.target_ne_nil
      refine ⟨packageDirectories.map (wholeTrail t (pathOf r)) ++
        [escapedPath (Path.ofChars ('/' :: out.toList))], ?_, ?_, ?_⟩
      · rw [List.forall_mem_append, List.forall_mem_singleton]
        exact ⟨hTrails packageDirectories, goesOn_escapedPath (Or.inr ⟨_, rfl⟩)⟩
      · rw [Option.map_some, Option.map_some, hEnd.joinText_eq (hOut out hSet),
          hR.ordinary.escapedPath_behind, List.map_append]
        rfl
      · rw [Option.map_some, Option.map_some, hEnd'.joinText_eq (hOut out hSet),
          hS.ordinary.escapedPath_behind, List.map_append]
        rfl

theorem isExcluded_eq (y : List Char) :
    isExcluded (exclusions t (pathOf r) (.ofConfig (pathOf r) config)) ((pathOf r).behind y) =
      isExcluded (exclusions u (pathOf s) (.ofConfig (pathOf s) config)) ((pathOf s).behind y) := by
  obtain ⟨tails, hTails, hT, hU⟩ := exists_exclusionTexts h hR hS hIn hOut
  rw [Bool.eq_iff_iff]
  exact ⟨isExcluded_behind hR.ordinary.plain hS.ordinary.plain hTails hT hU y,
    isExcluded_behind hS.ordinary.plain hR.ordinary.plain hTails hU hT y⟩

theorem foldl_foundFiles (allowJs : Bool) {patterns : List String}
    (hPatterns : ∀ pattern ∈ patterns, Inside r s pattern) {as bs : List Path}
    (hStart : List.Forall₂ (Beside (pathOf r) (pathOf s)) as bs) (hOrdered : Path.Ordered bs) :
    List.Forall₂ (Beside (pathOf r) (pathOf s))
      ((patterns.flatMap (foundFiles t allowJs
        (exclusions t (pathOf r) (.ofConfig (pathOf r) config)) (pathOf r))).foldl
          (fun paths p => p.insert paths) as)
      ((patterns.flatMap (foundFiles u allowJs
        (exclusions u (pathOf s) (.ofConfig (pathOf s) config)) (pathOf s))).foldl
          (fun paths p => p.insert paths) bs) := by
  have hExcluded := isExcluded_eq h hR hS hIn hOut
  induction patterns generalizing as bs with
  | nil => exact hStart
  | cons pattern patterns ih =>
    rw [List.forall_mem_cons] at hPatterns
    rw [List.flatMap_cons, List.flatMap_cons, List.foldl_append, List.foldl_append]
    refine ih hPatterns.2 ?_ (hOrdered.foldl_insert _)
    refine Path.foldl_insert_beside_of_mem (FileTree.isAbsolute_pathOf r) (FileTree.isAbsolute_pathOf s)
      hStart hOrdered (fun a hA => mem_foundFiles_moved h hR hS hPatterns.1 hExcluded hA)
      (fun b hB => ?_) fun b hB d hD => hS.eq_of_mem_foundFiles h.target_ne_nil hB hD
    obtain ⟨a, hA, x, hX, rfl, rfl⟩ := mem_foundFiles_moved h.symm hS hR hPatterns.1.symm
      (fun y => (hExcluded y).symm) hB
    exact ⟨_, hA, x, hX, rfl, rfl⟩

omit hIn hOut in
theorem listedFiles_moved {files : List String} (hFiles : ∀ file ∈ files, Inside r s file) :
    (∃ file ∈ files,
      listedFiles t ⟨pathOf r, files⟩ = .error (.listedFileMissing ((pathOf r).joinText file)) ∧
      listedFiles u ⟨pathOf s, files⟩ = .error (.listedFileMissing ((pathOf s).joinText file))) ∨
    (∀ file ∈ files, t.isFile ((pathOf r).joinText file) = true ∧
      u.isFile ((pathOf s).joinText file) = true) := by
  induction files with
  | nil => exact Or.inr nofun
  | cons file files ih =>
    rw [List.forall_mem_cons] at hFiles
    have hHere : t.isFile ((pathOf r).joinText file) = u.isFile ((pathOf s).joinText file) := by
      rw [(hR.endsInName h.source_ne_nil).joinText_eq hFiles.1.relative,
        (hS.endsInName h.target_ne_nil).joinText_eq hFiles.1.relative]
      exact h.isFile_eq hR.spelled hS.spelled hFiles.1.fits_file
    have hSplit : ∀ (t : FileTree) (base : Path), listedFiles t ⟨base, file :: files⟩ =
        if t.isFile (base.joinText file) then
          (listedFiles t ⟨base, files⟩).map (base.joinText file :: ·)
        else .error (.listedFileMissing (base.joinText file)) := by
      intro t base
      rw [listedFiles, List.map_cons, List.mapM_cons]
      split <;> rfl
    rw [hSplit, hSplit, ← hHere]
    by_cases hFile : t.isFile ((pathOf r).joinText file) = true
    · rw [if_pos hFile, if_pos hFile]
      rcases ih hFiles.2 with ⟨missing, hMem, hT, hU⟩ | hThere
      · rw [hT, hU]
        exact Or.inl ⟨missing, List.mem_cons_of_mem file hMem, rfl, rfl⟩
      · exact Or.inr (List.forall_mem_cons.mpr ⟨⟨hFile, hHere ▸ hFile⟩, hThere⟩)
    · rw [if_neg hFile, if_neg hFile]
      exact Or.inl ⟨file, List.mem_cons_self, rfl, rfl⟩

end Configs

/-- The same directory elsewhere has the same sources, or lacks the same listed file, if no walk below
the one or the other comes to a directory with too long a path. -/
theorem picksAlike_elsewhere {t u : FileTree} {r s : Location} (h : t.Relocation u r s) (hR : Home t r)
    (hS : Home u s) {config : TsConfig} (hIn : ∀ text ∈ patternsOf config, Inside r s text)
    (hOut : ∀ out, config.compilerOptions.outDir = some out → Path.isAbsolute ⟨out⟩ = false)
    (hWalks : WalksEnd t (pathOf r) (.ofConfig (pathOf r) config))
    (hWalks' : WalksEnd u (pathOf s) (.ofConfig (pathOf s) config)) :
    PicksAlike t u r s config := by
  have hListed : ∀ file ∈ config.files.getD [], Inside r s file :=
    fun file hFile => hIn file (by simp [patternsOf, hFile])
  rcases listedFiles_moved h hR hS hListed with ⟨file, hMem, hT, hU⟩ | hFiles
  · cases hSet : config.files with
    | none =>
      rw [hSet] at hMem
      cases hMem
    | some files =>
      rw [hSet] at hT hU
      have hSome : ∀ base, (Settings.ofConfig base config).files = some ⟨base, files⟩ := by
        intro base
        rw [Settings.ofConfig, hSet]
        rfl
      refine Or.inl ⟨file, collectFiles_of_missing ?_, collectFiles_of_missing ?_⟩
      · rw [hSome, Option.elim_some]
        exact hT
      · rw [hSome, Option.elim_some]
        exact hU
  · obtain ⟨patterns, hPatterns, hIncludes⟩ := exists_includesInForce config
    have hStart : List.Forall₂ (Beside (pathOf r) (pathOf s))
        ((config.files.getD []).map (pathOf r).joinText)
        ((config.files.getD []).map (pathOf s).joinText) := by
      rw [List.forall₂_map_left_iff, List.forall₂_map_right_iff, List.forall₂_same]
      intro file hFile
      have hRelative := (hListed file hFile).relative
      exact ⟨_, Or.inr ⟨_, rfl⟩,
        (hR.endsInName h.source_ne_nil).joinText_eq hRelative,
        (hS.endsInName h.target_ne_nil).joinText_eq hRelative⟩
    have hFold := foldl_foundFiles h hR hS hIn hOut (config.compilerOptions.allowJs.getD false)
      (fun pattern hMem => hIn pattern (hPatterns pattern hMem))
      (Path.foldl_insert_beside (FileTree.isAbsolute_pathOf r) (FileTree.isAbsolute_pathOf s) .nil hStart)
      (Path.Ordered.foldl_insert List.Pairwise.nil _)
    obtain ⟨tails, hTails, hAs, hBs⟩ := Path.Beside.exists_tails hFold
    refine Or.inr ⟨tails, hTails, collectFiles_eq_ok_iff.mpr ⟨?_, hWalks, ?_⟩,
      collectFiles_eq_ok_iff.mpr ⟨?_, hWalks', ?_⟩⟩
    · rw [listedPaths_ofConfig, List.forall_mem_map]
      exact fun file hFile => (hFiles file hFile).1
    · rw [← hAs, listedPaths_ofConfig, selectedFiles, hIncludes, List.foldl_append]
      rfl
    · rw [listedPaths_ofConfig, List.forall_mem_map]
      exact fun file hFile => (hFiles file hFile).2
    · rw [← hBs, listedPaths_ofConfig, selectedFiles, hIncludes, List.foldl_append]
      rfl

def hosted (name : String) : FileTree := ⟨[
  ([name], .directory 0o755),
  ([name, "src"], .directory 0o755),
  ([name, "src", "a.ts"], .file "".toUTF8 0o644)]⟩

def hostedConfig : TsConfig := { includes := some ["src"], compilerOptions := { outDir := some "out" } }

theorem relocation_hosted (m n : String) :
    (hosted m).Relocation (hosted n) [m] [n] where
  source_ne_nil := List.cons_ne_nil m []
  target_ne_nil := List.cons_ne_nil n []
  source := by simp [hosted, FileTree.isDirectoryAt, FileTree.node?]
  target := by simp [hosted, FileTree.isDirectoryAt, FileTree.node?]
  same := by
    intro x hX
    simp [hosted, FileTree.node?, List.lookup_cons]
  confined := by
    have hLinks : (hosted m).LinkFree := by simp [FileTree.LinkFree, hosted, FileTree.isLink]
    exact fun x name target hLink => absurd ⟨target, hLink⟩ (hLinks.not_isLinkAt _)

theorem hostedConfig_outDir : ∀ out, hostedConfig.compilerOptions.outDir = some out →
    Path.isAbsolute ⟨out⟩ = false := by
  intro out hOut
  cases hOut
  decide +kernel

theorem spelled_hosted {name : String} (hName : Path.IsName name)
    (hLocated : (hosted name).locate true (pathOf [name]) = .ok [name]) : (hosted name).Spelled [name] :=
  ⟨by simpa using hName, hLocated⟩

theorem picksAlike_hosted :
    PicksAlike (hosted "w") (hosted "v-1") ["w"] ["v-1"] hostedConfig ∧
      collectFiles (hosted "w") ⟨"/w"⟩ (.ofConfig ⟨"/w"⟩ hostedConfig) = .ok [⟨"/w/src/a.ts"⟩] := by
  have hW : Home (hosted "w") ["w"] :=
    ⟨by decide +kernel, spelled_hosted (by decide +kernel) (by decide +kernel), by decide +kernel⟩
  have hV : Home (hosted "v-1") ["v-1"] :=
    ⟨by decide +kernel, spelled_hosted (by decide +kernel) (by decide +kernel), by decide +kernel⟩
  have hOne : collectFiles (hosted "w") (pathOf ["w"]) (.ofConfig (pathOf ["w"]) hostedConfig) =
      .ok [⟨"/w/src/a.ts"⟩] := by decide +kernel
  have hOther : collectFiles (hosted "v-1") (pathOf ["v-1"]) (.ofConfig (pathOf ["v-1"]) hostedConfig) =
      .ok [⟨"/v-1/src/a.ts"⟩] := by decide +kernel
  constructor
  · exact picksAlike_elsewhere (relocation_hosted "w" "v-1") hW hV (by decide +kernel)
      hostedConfig_outDir (collectFiles_eq_ok_iff.mp hOne).2.1 (collectFiles_eq_ok_iff.mp hOther).2.1
  · exact hOne

/-- A bracket in the name of a directory above is read as a wildcard. -/
theorem not_forall_picksAlike :
    ¬∀ (t u : FileTree) (r s : Location) (config : TsConfig), t.Relocation u r s →
      t.Named → u.Named → t.Spelled r → u.Spelled s →
      (∀ text ∈ patternsOf config, Inside r s text) →
      (∀ out, config.compilerOptions.outDir = some out → Path.isAbsolute ⟨out⟩ = false) →
      WalksEnd t (pathOf r) (.ofConfig (pathOf r) config) →
      WalksEnd u (pathOf s) (.ofConfig (pathOf s) config) →
      PicksAlike t u r s config := by
  intro hAll
  have hNone : collectFiles (hosted "w[1]") (pathOf ["w[1]"])
      (.ofConfig (pathOf ["w[1]"]) hostedConfig) = .ok [] := by decide +kernel
  have hOne : collectFiles (hosted "w1") (pathOf ["w1"]) (.ofConfig (pathOf ["w1"]) hostedConfig) =
      .ok [⟨"/w1/src/a.ts"⟩] := by decide +kernel
  have hAlike := hAll _ _ _ _ hostedConfig (relocation_hosted "w[1]" "w1") (by decide +kernel)
    (by decide +kernel) (spelled_hosted (by decide +kernel) (by decide +kernel))
    (spelled_hosted (by decide +kernel) (by decide +kernel)) (by decide +kernel) hostedConfig_outDir
    (collectFiles_eq_ok_iff.mp hNone).2.1 (collectFiles_eq_ok_iff.mp hOne).2.1
  rcases hAlike with ⟨file, hT, -⟩ | ⟨tails, -, hT, hU⟩
  · rw [hNone] at hT
    cases hT
  · rw [hNone] at hT
    rw [hOne] at hU
    obtain rfl := List.map_eq_nil_iff.mp (Except.ok.inj hT).symm
    cases hU

end Project
end ExplicitModules
