import ExplicitModules.Proofs.Project.Pruning

/-!
# Settings that select more

What is collected depends on the lists of the settings as sets only, and grows with what is included and
shrinks with what is excluded, as long as the walks of those that select more come to their ends. Since
one spelling is kept of each path, and which one depends on what comes first, this is said of the
components of the paths.
-/
namespace ExplicitModules
set_option autoImplicit false
open Glob (Pattern)

/-- The same patterns in any order, each any number of times. -/
structure Patterns.Rearranged (patterns others : Patterns) : Prop where
  base : patterns.base = others.base
  mem_iff : ∀ pattern, pattern ∈ patterns.patterns ↔ pattern ∈ others.patterns

structure Patterns.Extended (patterns more : Patterns) : Prop where
  base : patterns.base = more.base
  subset : patterns.patterns ⊆ more.patterns

namespace Settings

structure Rearranged (settings others : Settings) : Prop where
  files : Option.Rel Patterns.Rearranged settings.files others.files
  includes : Option.Rel Patterns.Rearranged settings.includes others.includes
  excludes : Option.Rel Patterns.Rearranged settings.excludes others.excludes
  allowJs : settings.allowJs = others.allowJs
  outDir : settings.outDir = others.outDir

end Settings

theorem optionRel_iff {α : Type} {related : α → α → Prop} {one other : Option α} :
    Option.Rel related one other ↔
      (one = none ∧ other = none) ∨ ∃ a b, one = some a ∧ other = some b ∧ related a b := by
  cases one <;> cases other <;> simp

theorem Patterns.Rearranged.symm {patterns others : Patterns} (h : patterns.Rearranged others) :
    others.Rearranged patterns where
  base := h.base.symm
  mem_iff pattern := (h.mem_iff pattern).symm

theorem Patterns.Rearranged.extended {patterns others : Patterns} (h : patterns.Rearranged others) :
    patterns.Extended others where
  base := h.base
  subset pattern := (h.mem_iff pattern).mp

theorem Patterns.Rearranged.rel_symm {one other : Option Patterns}
    (h : Option.Rel Patterns.Rearranged one other) : Option.Rel Patterns.Rearranged other one := by
  cases h with
  | none => exact .none
  | some hSome => exact .some hSome.symm

theorem Settings.Rearranged.symm {settings others : Settings} (h : settings.Rearranged others) :
    others.Rearranged settings where
  files := Patterns.Rearranged.rel_symm h.files
  includes := Patterns.Rearranged.rel_symm h.includes
  excludes := Patterns.Rearranged.rel_symm h.excludes
  allowJs := h.allowJs.symm
  outDir := h.outDir.symm

namespace Project

/-- Both fail, or both give lists that are related. -/
def AlikeUpTo (related : List Path → List Path → Prop) :
    Except Fault (List Path) → Except Fault (List Path) → Prop
  | .ok paths, .ok others => related paths others
  | .error _, .error _ => True
  | _, _ => False

/-- Include patterns and listed files are added to settings that have include patterns. The listed
ones that are new are there. -/
structure Widened (t : FileTree) (settings wider : Settings) : Prop where
  listed : listedPaths settings ⊆ listedPaths wider
  found : ∀ p ∈ listedPaths wider, p ∈ listedPaths settings ∨ t.isFile p = true
  includes : ∃ patterns more, settings.includes = some patterns ∧ wider.includes = some more ∧
    patterns.Extended more
  excludes : settings.excludes = wider.excludes
  allowJs : settings.allowJs = wider.allowJs
  outDir : settings.outDir = wider.outDir

/-- Exclude patterns are added to settings that have some list of them. -/
structure Restricted (settings stricter : Settings) : Prop where
  files : settings.files = stricter.files
  includes : settings.includes = stricter.includes
  excludes : ∃ patterns more, settings.excludes = some patterns ∧ stricter.excludes = some more ∧
    patterns.Extended more
  allowJs : settings.allowJs = stricter.allowJs

section Exclusions

variable {t : FileTree} {few many : List Pattern} {allowJs : Bool} {base root p : Path}
  {pattern : String} {settings others : Settings}

theorem isExcluded_eq_false_of_subset (h : few ⊆ many) (hOpen : isExcluded many p = false) :
    isExcluded few p = false := by
  rw [isExcluded, List.any_eq_false] at hOpen ⊢
  exact fun pattern hMem => hOpen pattern (h hMem)

theorem isKept_of_subset (h : few ⊆ many) {e : WalkEntry} (hKept : isKept many e = true) :
    isKept few e = true := by
  simp only [isKept, Bool.and_eq_true, Bool.not_eq_true'] at hKept ⊢
  exact ⟨hKept.1, isExcluded_eq_false_of_subset h hKept.2⟩

theorem keptWay_of_subset (h : few ⊆ many) {start : Location} {shown : Path} {dirs : List String}
    (hWay : t.KeptWay (isKept many) start shown dirs) : t.KeptWay (isKept few) start shown dirs := by
  refine FileTree.keptWay_iff.mpr fun above dir hAbove => ?_
  obtain ⟨mode, hNode, hKept⟩ := FileTree.keptWay_iff.mp hWay above dir hAbove
  exact ⟨mode, hNode, isKept_of_subset h hKept⟩

theorem Finds.of_subset (h : few ⊆ many) (hFinds : Finds t many root p) : Finds t few root p := by
  cases hFinds with
  | start hLoc hFile => exact .start hLoc hFile
  | below hStart hDirectory hWay hFile hOpen =>
    exact .below hStart hDirectory (keptWay_of_subset h hWay) hFile
      (isExcluded_eq_false_of_subset h hOpen)

theorem walkFails_of_subset (h : few ⊆ many) (hFails : WalkFails t many base pattern) :
    WalkFails t few base pattern := by
  obtain ⟨hPattern, start, dirs, hStart, hDirectory, hSome, hWay, hLong⟩ := hFails
  exact ⟨hPattern, start, dirs, hStart, hDirectory, hSome, keptWay_of_subset h hWay, hLong⟩

theorem foundFiles_subset (h : few ⊆ many) :
    foundFiles t allowJs many base pattern ⊆ foundFiles t allowJs few base pattern := by
  intro p hMem
  obtain ⟨compiled, hPattern, hPresent, hFinds, hRest⟩ := finds_of_mem_foundFiles hMem
  exact (mem_foundFiles_iff hPattern).mpr ⟨hPresent, hFinds.of_subset h, hRest⟩

theorem exclusions_subset (h : exclusionTexts t root settings ⊆ exclusionTexts t root others) :
    exclusions t root settings ⊆ exclusions t root others := by
  intro pattern hMem
  obtain ⟨text, hText, hRead⟩ := mem_exclusions_iff.mp hMem
  exact mem_exclusions_iff.mpr ⟨text, h hText, hRead⟩

theorem exclusionTexts_subset {patterns more : Patterns} (hPatterns : settings.excludes = some patterns)
    (hMore : others.excludes = some more) (h : patterns.Extended more) :
    exclusionTexts t root settings ⊆ exclusionTexts t root others := by
  rw [exclusionTexts, exclusionTexts, hPatterns, hMore]
  dsimp only
  rw [h.base]
  exact List.map_subset _ h.subset

end Exclusions

section Collecting

variable {t : FileTree} {root : Path} {settings others : Settings} {paths : List Path}

theorem selectedFiles_subset (hAllow : settings.allowJs = others.allowJs)
    (hIncludes : (includesInForce root settings).Extended (includesInForce root others))
    (hExclusions : exclusions t root others ⊆ exclusions t root settings) :
    selectedFiles t root settings ⊆ selectedFiles t root others := by
  intro p hMem
  obtain ⟨pattern, hPattern, hSelected⟩ := List.mem_flatMap.mp hMem
  refine List.mem_flatMap.mpr ⟨pattern, hIncludes.subset hPattern, ?_⟩
  rw [← hAllow, ← hIncludes.base]
  exact foundFiles_subset hExclusions hSelected

theorem walksEnd_of_extended
    (hIncludes : (includesInForce root settings).Extended (includesInForce root others))
    (hExclusions : exclusions t root others ⊆ exclusions t root settings)
    (hWalks : WalksEnd t root others) : WalksEnd t root settings := by
  intro pattern hPattern hFails
  refine hWalks pattern (hIncludes.subset hPattern) ?_
  rw [← hIncludes.base]
  exact walkFails_of_subset hExclusions hFails

/-- A spelling of each path that is listed or selected is collected, and nothing else. -/
theorem mem_map_components_collectFiles (h : collectFiles t root settings = .ok paths)
    {c : List Path.Component} : c ∈ paths.map Path.components ↔
      c ∈ (listedPaths settings ++ selectedFiles t root settings).map Path.components := by
  obtain ⟨-, -, rfl⟩ := collectFiles_eq_ok_iff.mp h
  exact Path.mem_map_components_foldl_insert

theorem ordered_of_collectFiles (h : collectFiles t root settings = .ok paths) : Path.Ordered paths := by
  obtain ⟨-, -, rfl⟩ := collectFiles_eq_ok_iff.mp h
  exact Path.Ordered.foldl_insert List.Pairwise.nil _

end Collecting

section Comparing

variable {t : FileTree} {root : Path} {settings others : Settings}

theorem alikeUpTo_collectFiles {related : List Path → List Path → Prop}
    (hListed : (∀ p ∈ listedPaths settings, t.isFile p = true) ↔
      ∀ p ∈ listedPaths others, t.isFile p = true)
    (hWalks : WalksEnd t root settings ↔ WalksEnd t root others)
    (hRelated : ∀ paths paths', collectFiles t root settings = .ok paths →
      collectFiles t root others = .ok paths' → related paths paths') :
    AlikeUpTo related (collectFiles t root settings) (collectFiles t root others) := by
  have hBoth : (∃ paths, collectFiles t root settings = .ok paths) ↔
      ∃ paths, collectFiles t root others = .ok paths := by
    rw [collectFiles_succeeds_iff, collectFiles_succeeds_iff, hListed, hWalks]
  cases hOne : collectFiles t root settings with
  | ok paths =>
    obtain ⟨paths', hOther⟩ := hBoth.mp ⟨paths, hOne⟩
    rw [hOther]
    exact hRelated paths paths' hOne hOther
  | error e =>
    cases hOther : collectFiles t root others with
    | error e' => trivial
    | ok paths' =>
      obtain ⟨paths, hOk⟩ := hBoth.mpr ⟨paths', hOther⟩
      rw [hOk] at hOne
      cases hOne

/-- What is listed or selected by more settings is collected by them. -/
theorem map_components_subset {paths paths' : List Path} (h : collectFiles t root settings = .ok paths)
    (h' : collectFiles t root others = .ok paths')
    (hListed : listedPaths settings ⊆ listedPaths others)
    (hSelected : selectedFiles t root settings ⊆ selectedFiles t root others) :
    paths.map Path.components ⊆ paths'.map Path.components := by
  intro c hC
  rw [mem_map_components_collectFiles h] at hC
  rw [mem_map_components_collectFiles h']
  have hBoth := List.append_subset.mpr ⟨List.subset_append_of_subset_left _ hListed,
    List.subset_append_of_subset_right _ hSelected⟩
  exact List.map_subset _ hBoth hC

theorem listedPaths_subset (h : settings.Rearranged others) :
    listedPaths settings ⊆ listedPaths others := by
  rcases optionRel_iff.mp h.files with ⟨hOne, hOther⟩ | ⟨files, files', hOne, hOther, hFiles⟩
  · rw [listedPaths, listedPaths, hOne, hOther]
    exact List.Subset.refl _
  · rw [listedPaths, listedPaths, hOne, hOther, Option.elim_some, Option.elim_some, hFiles.base]
    exact List.map_subset _ hFiles.extended.subset

theorem includesInForce_extended (h : settings.Rearranged others) :
    (includesInForce root settings).Extended (includesInForce root others) := by
  rw [includesInForce, includesInForce]
  rcases optionRel_iff.mp h.includes with ⟨hOne, hOther⟩ | ⟨patterns, patterns', hOne, hOther, hPatterns⟩
  · rw [hOne, hOther]
    rcases optionRel_iff.mp h.files with ⟨hOne, hOther⟩ | ⟨files, files', hOne, hOther, -⟩
    · rw [hOne, hOther]
      exact ⟨rfl, List.Subset.refl _⟩
    · rw [hOne, hOther]
      exact ⟨rfl, List.Subset.refl _⟩
  · rw [hOne, hOther]
    exact hPatterns.extended

theorem exclusions_subset_of_rearranged (h : settings.Rearranged others) :
    exclusions t root settings ⊆ exclusions t root others := by
  refine exclusions_subset ?_
  rcases optionRel_iff.mp h.excludes with ⟨hOne, hOther⟩ | ⟨patterns, patterns', hOne, hOther, hPatterns⟩
  · rw [exclusionTexts, exclusionTexts, hOne, hOther, h.outDir]
    exact List.Subset.refl _
  · exact exclusionTexts_subset hOne hOther hPatterns.extended

theorem selectedFiles_subset_of_rearranged (h : settings.Rearranged others) :
    selectedFiles t root settings ⊆ selectedFiles t root others :=
  selectedFiles_subset h.allowJs (includesInForce_extended h) (exclusions_subset_of_rearranged h.symm)

theorem rearranged_collectFiles (h : settings.Rearranged others) :
    AlikeUpTo (fun paths paths' => paths.map Path.components = paths'.map Path.components)
      (collectFiles t root settings) (collectFiles t root others) := by
  have hListed : ∀ p, p ∈ listedPaths settings ↔ p ∈ listedPaths others := fun p =>
    ⟨fun hP => listedPaths_subset h hP, fun hP => listedPaths_subset h.symm hP⟩
  have hWalks : WalksEnd t root settings ↔ WalksEnd t root others :=
    ⟨walksEnd_of_extended (includesInForce_extended h.symm) (exclusions_subset_of_rearranged h),
      walksEnd_of_extended (includesInForce_extended h) (exclusions_subset_of_rearranged h.symm)⟩
  refine alikeUpTo_collectFiles (by simp only [hListed]) hWalks fun paths paths' hOne hOther => ?_
  refine (ordered_of_collectFiles hOne).map_components_eq (ordered_of_collectFiles hOther) fun c => ?_
  have hMore := map_components_subset hOne hOther (listedPaths_subset h)
    (selectedFiles_subset_of_rearranged h)
  have hLess := map_components_subset hOther hOne (listedPaths_subset h.symm)
    (selectedFiles_subset_of_rearranged h.symm)
  exact ⟨fun hC => hMore hC, fun hC => hLess hC⟩

theorem widened_collectFiles (h : Widened t settings others) (hWalks : WalksEnd t root others) :
    AlikeUpTo (fun paths more => paths.map Path.components ⊆ more.map Path.components)
      (collectFiles t root settings) (collectFiles t root others) := by
  have hListed : (∀ p ∈ listedPaths settings, t.isFile p = true) ↔
      ∀ p ∈ listedPaths others, t.isFile p = true :=
    ⟨fun hAll p hP => (h.found p hP).elim (hAll p) id, fun hAll p hP => hAll p (h.listed hP)⟩
  have hForce : (includesInForce root settings).Extended (includesInForce root others) := by
    obtain ⟨patterns, more, hOne, hOther, hMore⟩ := h.includes
    rw [includesInForce, includesInForce, hOne, hOther]
    exact hMore
  have hExclusions : exclusions t root others ⊆ exclusions t root settings := by
    refine exclusions_subset ?_
    rw [exclusionTexts, exclusionTexts, h.excludes, h.outDir]
    exact List.Subset.refl _
  refine alikeUpTo_collectFiles hListed
    (iff_of_true (walksEnd_of_extended hForce hExclusions hWalks) hWalks)
    fun paths more hPaths hMore => ?_
  exact map_components_subset hPaths hMore h.listed (selectedFiles_subset h.allowJs hForce hExclusions)

theorem restricted_collectFiles (h : Restricted settings others)
    (hWalks : WalksEnd t root settings) :
    AlikeUpTo (fun paths fewer => fewer.map Path.components ⊆ paths.map Path.components)
      (collectFiles t root settings) (collectFiles t root others) := by
  have hListed : listedPaths others = listedPaths settings := by rw [listedPaths, listedPaths, h.files]
  have hForce : (includesInForce root others).Extended (includesInForce root settings) := by
    have hSame : includesInForce root others = includesInForce root settings := by
      rw [includesInForce, includesInForce, h.includes, h.files]
    exact hSame ▸ ⟨rfl, List.Subset.refl _⟩
  have hExclusions : exclusions t root settings ⊆ exclusions t root others := by
    obtain ⟨patterns, more, hOne, hOther, hMore⟩ := h.excludes
    exact exclusions_subset (exclusionTexts_subset hOne hOther hMore)
  refine alikeUpTo_collectFiles (by rw [hListed])
    (iff_of_true hWalks (walksEnd_of_extended hForce hExclusions hWalks))
    fun paths fewer hPaths hFewer => ?_
  exact map_components_subset hFewer hPaths (hListed ▸ List.Subset.refl _)
    (selectedFiles_subset h.allowJs.symm hForce hExclusions)

end Comparing

/-- Collecting fails exactly for a listed path that does not lead to a file, or for an include pattern
whose walk comes to a directory that it cannot open. What is collected is strictly in order, depends on
the lists of the settings as sets, grows with what is included and shrinks with what is excluded, up to
the spelling of the paths, if no walk fails for the settings that select more. -/
theorem collectFiles_laws (t : FileTree) (root : Path) (settings : Settings) :
    ((∃ e, collectFiles t root settings = .error e) ↔
      (∃ files, settings.files = some files ∧
        ∃ name ∈ files.patterns, t.isFile (files.base.joinText name) = false) ∨
      ∃ pattern ∈ (includesInForce root settings).patterns,
        WalkFails t (exclusions t root settings) (includesInForce root settings).base pattern) ∧
    (∀ paths, collectFiles t root settings = .ok paths →
      paths.Pairwise fun p q => p.before q = true) ∧
    (∀ others, settings.Rearranged others →
      AlikeUpTo (fun paths paths' => paths.map Path.components = paths'.map Path.components)
        (collectFiles t root settings) (collectFiles t root others)) ∧
    (∀ wider, Widened t settings wider → WalksEnd t root wider →
      AlikeUpTo (fun paths more => paths.map Path.components ⊆ more.map Path.components)
        (collectFiles t root settings) (collectFiles t root wider)) ∧
    ∀ stricter, Restricted settings stricter → WalksEnd t root settings →
      AlikeUpTo (fun paths fewer => fewer.map Path.components ⊆ paths.map Path.components)
        (collectFiles t root settings) (collectFiles t root stricter) := by
  refine ⟨?_, fun paths h => ordered_of_collectFiles h, fun others h => rearranged_collectFiles h,
    fun wider h hWalks => widened_collectFiles h hWalks,
    fun stricter h hWalks => restricted_collectFiles h hWalks⟩
  have hListed : (∃ p ∈ listedPaths settings, t.isFile p = false) ↔
      ∃ files, settings.files = some files ∧
        ∃ name ∈ files.patterns, t.isFile (files.base.joinText name) = false := by
    constructor
    · rintro ⟨p, hP, hMissing⟩
      obtain ⟨files, hFiles, name, hName, rfl⟩ := mem_listedPaths.mp hP
      exact ⟨files, hFiles, name, hName, hMissing⟩
    · rintro ⟨files, hFiles, name, hName, hMissing⟩
      exact ⟨_, mem_listedPaths.mpr ⟨files, hFiles, name, hName, rfl⟩, hMissing⟩
  rw [collectFiles_fails_iff, hListed]

def fewFiles : FileTree := ⟨[
  (["w"], .directory 0o755),
  (["w", "a.ts"], .file "".toUTF8 0o644),
  (["w", "b.ts"], .file "".toUTF8 0o644),
  (["w", "gen"], .directory 0o755),
  (["w", "gen", "c.ts"], .file "".toUTF8 0o644)]⟩

def settingsOf (files includes excludes : List String) : Settings where
  files := some ⟨⟨"/w"⟩, files⟩
  includes := some ⟨⟨"/w"⟩, includes⟩
  excludes := some ⟨⟨"/w"⟩, excludes⟩

def fewSettings : Settings := settingsOf ["b.ts", "./b.ts"] ["gen"] ["out"]

/-- Which spelling of a path is kept depends on the order, the path does not. -/
theorem fewFiles_laws :
    (collectFiles fewFiles ⟨"/w"⟩ fewSettings = .ok [⟨"/w/b.ts"⟩, ⟨"/w/gen/c.ts"⟩] ∧
      [(⟨"/w/b.ts"⟩ : Path), ⟨"/w/gen/c.ts"⟩].Pairwise fun p q => p.before q = true) ∧
    (fewSettings.Rearranged (settingsOf ["./b.ts", "b.ts"] ["gen", "gen"] ["out"]) ∧
      collectFiles fewFiles ⟨"/w"⟩ (settingsOf ["./b.ts", "b.ts"] ["gen", "gen"] ["out"]) =
        .ok [⟨"/w/./b.ts"⟩, ⟨"/w/gen/c.ts"⟩] ∧
      [(⟨"/w/b.ts"⟩ : Path), ⟨"/w/gen/c.ts"⟩].map Path.components =
        [(⟨"/w/./b.ts"⟩ : Path), ⟨"/w/gen/c.ts"⟩].map Path.components) ∧
    (Widened fewFiles fewSettings (settingsOf ["b.ts", "./b.ts", "a.ts"] ["*.ts", "gen"] ["out"]) ∧
      collectFiles fewFiles ⟨"/w"⟩ (settingsOf ["b.ts", "./b.ts", "a.ts"] ["*.ts", "gen"] ["out"]) =
        .ok [⟨"/w/a.ts"⟩, ⟨"/w/b.ts"⟩, ⟨"/w/gen/c.ts"⟩] ∧
      [(⟨"/w/b.ts"⟩ : Path), ⟨"/w/gen/c.ts"⟩].map Path.components ⊆
        [(⟨"/w/a.ts"⟩ : Path), ⟨"/w/b.ts"⟩, ⟨"/w/gen/c.ts"⟩].map Path.components) ∧
    Restricted fewSettings (settingsOf ["b.ts", "./b.ts"] ["gen"] ["gen/c.ts", "out"]) ∧
      collectFiles fewFiles ⟨"/w"⟩ (settingsOf ["b.ts", "./b.ts"] ["gen"] ["gen/c.ts", "out"]) =
        .ok [⟨"/w/b.ts"⟩] ∧
      [(⟨"/w/b.ts"⟩ : Path)].map Path.components ⊆
        [(⟨"/w/b.ts"⟩ : Path), ⟨"/w/gen/c.ts"⟩].map Path.components := by
  have hRearranged : fewSettings.Rearranged (settingsOf ["./b.ts", "b.ts"] ["gen", "gen"] ["out"]) := by
    refine ⟨.some ⟨rfl, fun name => ?_⟩, .some ⟨rfl, fun name => ?_⟩, .some ⟨rfl, fun _ => Iff.rfl⟩,
      rfl, rfl⟩
    · simp [or_comm]
    · simp
  have hWidened :
      Widened fewFiles fewSettings (settingsOf ["b.ts", "./b.ts", "a.ts"] ["*.ts", "gen"] ["out"]) := by
    refine ⟨by decide +kernel, by decide +kernel, ⟨_, _, rfl, rfl, rfl, ?_⟩, rfl, rfl, rfl⟩
    simp
  have hRestricted :
      Restricted fewSettings (settingsOf ["b.ts", "./b.ts"] ["gen"] ["gen/c.ts", "out"]) := by
    refine ⟨rfl, rfl, ⟨_, _, rfl, rfl, rfl, ?_⟩, rfl⟩
    simp
  have hFew : collectFiles fewFiles ⟨"/w"⟩ fewSettings = .ok [⟨"/w/b.ts"⟩, ⟨"/w/gen/c.ts"⟩] := by
    decide +kernel
  have hOther : collectFiles fewFiles ⟨"/w"⟩ (settingsOf ["./b.ts", "b.ts"] ["gen", "gen"] ["out"]) =
      .ok [⟨"/w/./b.ts"⟩, ⟨"/w/gen/c.ts"⟩] := by decide +kernel
  have hMore : collectFiles fewFiles ⟨"/w"⟩
      (settingsOf ["b.ts", "./b.ts", "a.ts"] ["*.ts", "gen"] ["out"]) =
      .ok [⟨"/w/a.ts"⟩, ⟨"/w/b.ts"⟩, ⟨"/w/gen/c.ts"⟩] := by decide +kernel
  have hFewer : collectFiles fewFiles ⟨"/w"⟩
      (settingsOf ["b.ts", "./b.ts"] ["gen"] ["gen/c.ts", "out"]) = .ok [⟨"/w/b.ts"⟩] := by
    decide +kernel
  obtain ⟨-, hOrdered, hSame, hGrows, hShrinks⟩ := collectFiles_laws fewFiles ⟨"/w"⟩ fewSettings
  have hSame := hSame _ hRearranged
  have hGrows := hGrows _ hWidened (collectFiles_eq_ok_iff.mp hMore).2.1
  have hShrinks := hShrinks _ hRestricted (collectFiles_eq_ok_iff.mp hFew).2.1
  rw [hFew, hOther] at hSame
  rw [hFew, hMore] at hGrows
  rw [hFew, hFewer] at hShrinks
  exact ⟨⟨hFew, hOrdered _ hFew⟩, ⟨hRearranged, hOther, hSame⟩, ⟨hWidened, hMore, hGrows⟩,
    hRestricted, hFewer, hShrinks⟩

/-- With a directory below that cannot be opened, collecting fails though nothing is listed. A wider
pattern then takes away what there was, and an exclusion brings it back. -/
theorem not_forall_collectFiles_laws :
    (¬∀ (t : FileTree) (root : Path) (settings : Settings), t.Named →
      ((∃ e, collectFiles t root settings = .error e) ↔ ∃ files, settings.files = some files ∧
        ∃ name ∈ files.patterns, t.isFile (files.base.joinText name) = false)) ∧
    (¬∀ (t : FileTree) (root : Path) (settings wider : Settings), t.Named →
      Widened t settings wider →
        AlikeUpTo (fun paths more => paths.map Path.components ⊆ more.map Path.components)
          (collectFiles t root settings) (collectFiles t root wider)) ∧
    ¬∀ (t : FileTree) (root : Path) (settings stricter : Settings), t.Named →
      Restricted settings stricter →
        AlikeUpTo (fun paths fewer => fewer.map Path.components ⊆ paths.map Path.components)
          (collectFiles t root settings) (collectFiles t root stricter) := by
  obtain ⟨e, hFails⟩ : ∃ e, collectFiles nestedTree ⟨"/w"⟩ (settingsFor ["**/*"] []) = .error e :=
    collectFiles_fails_iff.mpr (Or.inr ⟨"**/*", List.mem_singleton_self _, walkFails_nestedTree⟩)
  refine ⟨fun hAll => ?_, fun hAll => ?_, fun hAll => ?_⟩
  · obtain ⟨files, hFiles, -⟩ := (hAll _ _ _ named_nestedTree).mp ⟨e, hFails⟩
    cases hFiles
  · have hNarrow : collectFiles nestedTree ⟨"/w"⟩ (settingsFor ["a.ts"] []) = .ok [⟨"/w/a.ts"⟩] := by
      decide +kernel
    have hWidened : Widened nestedTree (settingsFor ["a.ts"] []) (settingsFor ["a.ts", "**/*"] []) :=
      ⟨List.Subset.refl _, nofun, ⟨_, _, rfl, rfl, rfl, by simp⟩, rfl, rfl, rfl⟩
    obtain ⟨e, hWider⟩ : ∃ e, collectFiles nestedTree ⟨"/w"⟩ (settingsFor ["a.ts", "**/*"] []) =
        .error e :=
      collectFiles_fails_iff.mpr (Or.inr ⟨"**/*", by simp [settingsFor, includesInForce],
        walkFails_nestedTree⟩)
    have hAlike := hAll _ ⟨"/w"⟩ _ _ named_nestedTree hWidened
    rw [hNarrow, hWider] at hAlike
    exact hAlike
  · have hStrict : collectFiles nestedTree ⟨"/w"⟩ (settingsFor ["**/*"] ["d*"]) = .ok [⟨"/w/a.ts"⟩] := by
      decide +kernel
    have hRestricted : Restricted (settingsFor ["**/*"] []) (settingsFor ["**/*"] ["d*"]) :=
      ⟨rfl, rfl, ⟨_, _, rfl, rfl, rfl, List.nil_subset _⟩, rfl⟩
    have hAlike := hAll nestedTree ⟨"/w"⟩ _ _ named_nestedTree hRestricted
    rw [hFails, hStrict] at hAlike
    exact hAlike

end Project
end ExplicitModules
